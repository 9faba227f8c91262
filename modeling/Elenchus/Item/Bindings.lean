import Elenchus.Item.Construct

/-!
Substitutions as callers hand them in: variables may be bound to values that are no terms. Such a
value can stand for a variable by itself, but not inside of a term.
-/

namespace Elenchus

/-- Values of variables in order, each variable bound at most once. -/
structure Bindings where
  pairs : List (String × Item)
  deriving Inhabited

namespace Bindings

def empty : Bindings := ⟨[]⟩

def ofSubst (σ : Subst) : Bindings := ⟨σ.bindings.map fun b => (b.1, .term b.2)⟩

/-- Terms among other values. -/
def term? : Item → Option Term
  | .term t => some t
  | _ => none

def terms? (is : List Item) : Option (List Term) := is.mapM term?

/-- The substitution, if all values are terms. -/
def subst? (β : Bindings) : Option Subst :=
  (β.pairs.mapM fun b => (term? b.2).map fun t => (b.1, t)).map fun ps =>
    ps.foldl (fun σ p => σ.pin p.1 p.2) .empty

def isEmpty (β : Bindings) : Bool := β.pairs.isEmpty

/-- The bound variables in order. -/
def domain (β : Bindings) : List String := β.pairs.map Prod.fst

def get? (β : Bindings) (x : String) : Option Item := β.pairs.lookup x

def binds (β : Bindings) (x : String) : Bool := (β.get? x).isSome

/-- Leaves out the bindings of a variable to itself. -/
def proper (β : Bindings) : Bindings :=
  ⟨β.pairs.filter fun b => !b.2.same (.term (.var b.1))⟩

/-- Reads a list of pairs: a later pair for the same variable replaces the value and keeps the
place, and identity pairs are left out. -/
def ofList (ps : List (String × Item)) : Bindings :=
  proper ⟨ps.foldl (fun bs p => put p.1 p.2 bs) []⟩

def bindingText (b : String × Item) : String := b.1 ++ " ↦ " ++ b.2.text

def text (β : Bindings) : String := Item.braces (β.pairs.map bindingText)

/-- The same bindings in any order. -/
def same (β γ : Bindings) : Bool :=
  match β.subst?, γ.subst? with
  | some σ, some τ => σ.same τ
  | _, _ => β.pairs.length == γ.pairs.length && β.pairs.all fun b => (γ.get? b.1).any b.2.alike

/-- Every value is a variable, and no two are the same. -/
def isRenaming (β : Bindings) : Bool :=
  match β.subst? with
  | some σ => σ.isRenaming
  | none => false

/-! ### Application -/

mutual
/-- One simultaneous pass over a term. -/
def applyTerm (β : Bindings) : Term → Except ConstructError Item
  | .var x => .ok ((β.get? x).getD (.term (.var x)))
  | .app f ts => do
    let args ← applyTerms β ts
    return .term (.app f (← args.mapM Construct.term))

def applyTerms (β : Bindings) : List Term → Except ConstructError (List Item)
  | [] => .ok []
  | t :: ts => do
    let i ← applyTerm β t
    let is ← applyTerms β ts
    return i :: is
end

/-- A value that is no term stays what it is. -/
def apply (β : Bindings) : Item → Except ConstructError Item
  | .term t => β.applyTerm t
  | i => .ok i

def applyAtom (β : Bindings) (a : Atom) : Except ConstructError Atom := do
  let args ← β.applyTerms a.args
  return { a with args := ← args.mapM Construct.term }

def applyLiteral (β : Bindings) (l : Literal) : Except ConstructError Literal := do
  return { l with atom := ← β.applyAtom l.atom }

def applyClause (β : Bindings) (c : Clause) : Except ConstructError Clause := do
  return .ofList (← c.literals.mapM β.applyLiteral)

/-- Applies bindings to every value. -/
def applyEach (γ : Bindings) : List (String × Item) → Except ConstructError (List (String × Item))
  | [] => .ok []
  | (x, i) :: bs => do
    let i ← γ.apply i
    let bs ← applyEach γ bs
    return (x, i) :: bs

/-- Adds `x ↦ i`, with the values bound so far brought up to date. -/
def bind (β : Bindings) (x : String) (i : Item) : Except ConstructError Bindings := do
  match β.subst?, i with
  | some σ, .term t => return ofSubst (σ.bind x t)
  | _, i => return proper ⟨put x i (← applyEach (ofList [(x, i)]) β.pairs)⟩

/-- First `β`, then `γ`. -/
def compose (β γ : Bindings) : Except ConstructError Bindings := do
  match β.subst?, γ.subst? with
  | some σ, some τ => return ofSubst (σ.compose τ)
  | _, _ =>
    let own ← applyEach γ β.pairs
    return proper ⟨own ++ γ.pairs.filter fun b => !β.binds b.1⟩

/-! ### Unification and matching -/

/-- Whether a variable occurs in a value. -/
def occursIn (x : String) : Item → Bool
  | .term t => t.mentions x
  | _ => false

/-- Unifies two lists of the same length position by position. -/
def unifyListWith (unify : Bindings → Item → Item → Except ConstructError (Option Bindings)) :
    Bindings → List Item → List Item → Except ConstructError (Option Bindings)
  | β, a :: as, b :: bs => do
    match ← unify β a b with
    | some γ => unifyListWith unify γ as bs
    | none => return none
  | β, _, _ => .ok (some β)

/-- Unification of values, of which terms are never more than `depth` applications deep under the
bindings at hand. -/
def unifyWithin (occursCheck : Bool) : (depth : Nat) → Bindings → Item → Item →
    Except ConstructError (Option Bindings)
  | 0, _, _, _ => .ok none
  | depth + 1, β, a, b => do
    let a ← β.apply a
    let b ← β.apply b
    if a.same b then return some β
    match a, b with
    | .term (.var x), b =>
      if occursCheck && occursIn x b then return none else return some (← β.bind x b)
    | a, .term (.var y) =>
      if occursCheck && occursIn y a then return none else return some (← β.bind y a)
    | .term (.app f ss), .term (.app g ts) =>
      if f = g ∧ ss.length = ts.length then
        unifyListWith (unifyWithin occursCheck depth) β (ss.map .term) (ts.map .term)
      else return none
    | _, _ => return none

/-- The size of the terms among values. -/
def sizeOf (is : List Item) : Nat := Term.sizeList (is.filterMap term?)

/-- The depth to which values of some size can be nested under the bindings. -/
def depthBound (β : Bindings) (size : Nat) : Nat :=
  let n := size + sizeOf (β.pairs.map Prod.snd)
  n * Nat.pow 2 n + 1000

/-- Extends the bindings to unify two values. Terms are unified as terms. -/
def unify (occursCheck : Bool) (β : Bindings) (a b : Item) :
    Except ConstructError (Option Bindings) :=
  match β.subst?, a, b with
  | some σ, .term s, .term t => .ok ((σ.unify occursCheck s t).map ofSubst)
  | _, a, b => unifyWithin occursCheck (β.depthBound (sizeOf [a, b])) β a b

def unifyList (occursCheck : Bool) (β : Bindings) (as bs : List Item) :
    Except ConstructError (Option Bindings) :=
  match β.subst?, terms? as, terms? bs with
  | some σ, some ss, some ts => .ok ((σ.unifyList occursCheck ss ts).map ofSubst)
  | _, _, _ =>
    if as.length = bs.length then
      unifyListWith (unifyWithin occursCheck (β.depthBound (sizeOf (as ++ bs)))) β as bs
    else .ok none

def unifyAtoms (occursCheck : Bool) (β : Bindings) (a b : Atom) :
    Except ConstructError (Option Bindings) :=
  if a.predicate = b.predicate then
    unifyList occursCheck β (a.args.map .term) (b.args.map .term)
  else .ok none

/-- Unifies the atoms of two literals, whose signs differ if `opposite` is true and agree if it is
false; of other values of `opposite` nothing is asked. -/
def unifyLiterals (opposite : Item) (occursCheck : Bool) (β : Bindings) (l m : Literal) :
    Except ConstructError (Option Bindings) :=
  if opposite.same (.bool (l.positive == m.positive)) then .ok none
  else unifyAtoms occursCheck β l.atom m.atom

mutual
/-- Extends the bindings so that they take the pattern to the target. -/
def matchTerm (β : Bindings) : (pattern : Term) → (target : Item) → Option Bindings
  | .var x, i =>
    match β.get? x with
    | some j => if j.same i then some β else none
    | none => some ⟨β.pairs ++ [(x, i)]⟩
  | .app f ps, .term (.app g ts) => if f = g then matchTerms β ps ts else none
  | .app _ _, _ => none

def matchTerms (β : Bindings) : (patterns targets : List Term) → Option Bindings
  | [], [] => some β
  | p :: ps, t :: ts => (matchTerm β p (.term t)).bind fun γ => matchTerms γ ps ts
  | _, _ => none
end

/-- Matches a value; one that is no term matches what equals it. -/
def matchItem (β : Bindings) (pattern target : Item) : Option Bindings :=
  match β.subst?, pattern, target with
  | some σ, .term p, .term t => (σ.matchTerm p t).map ofSubst
  | _, .term p, i => β.matchTerm p i
  | _, p, i => if p.same i then some β else none

def matchLiteral (β : Bindings) (pattern target : Literal) : Option Bindings :=
  match β.subst? with
  | some σ => (σ.matchLiteral pattern target).map ofSubst
  | none =>
    if pattern.positive = target.positive ∧ pattern.atom.pred = target.atom.pred then
      β.matchTerms pattern.atom.args target.atom.args
    else none

end Bindings

end Elenchus

import Elenchus.Store.Basic

/-! What the inference rules share, factoring, and binary resolution. -/

namespace Elenchus

/-- The member at a position; negative positions count from the end. -/
def at? {α : Type} (l : List α) (i : Int) : Option α :=
  if 0 ≤ i then l[i.toNat]?
  else if -(l.length : Int) ≤ i then l[(l.length + i).toNat]?
  else none

/-- The members whose positions, counted from the front, are not listed. -/
def dropAt {α : Type} (positions : List Int) (l : List α) : List α :=
  (l.zipIdx.filter fun p => !positions.contains (p.2 : Int)).map Prod.fst

/-- Rules are applied up to the first clause at which this holds, and go on where it never does. -/
abbrev Halt := Derived → Bool

def Halt.never : Halt := fun _ => false

/-- A rule cannot go on after a clause whose depth cannot be told. -/
def Halt.noDepth : Halt := fun d => !d.hasDepth

/-- Outcome of a rule: new clauses, or clauses that can go. -/
structure Application where
  rule : String
  parents : List Item
  generated : List Derived := []
  deleted : List Item := []

/-- Whether the depths of all new clauses could be told. -/
def Application.hasDepths (a : Application) : Bool := a.generated.all Derived.hasDepth

namespace Inference

/-! ### Factoring

Two literals of a clause with the same sign and predicate are unified, and the later one goes. -/

def factorAt (occursCheck : Bool) (c : Filed) (i j : Nat) (l m : Literal) : Option Derived :=
  (Subst.unifyAlike occursCheck .empty l m).map fun σ =>
    { clause := .ofList ((dropAt [(j : Int)] c.clause.literals).map (Literal.subst σ))
      derivation := some
        { rule := .str factoringRule
          parents := [.int c.id]
          unifier := some (.ofSubst σ)
          indices := [.int i, .int j]
          depth := c.derived.nextDepth [] } }

def factors (occursCheck : Bool) (c : Filed) : List Derived :=
  c.clause.literals.zipIdx.flatMap fun (l, i) =>
    c.clause.literals.zipIdx.filterMap fun (m, j) =>
      if i < j ∧ l.key = m.key then factorAt occursCheck c i j l m else none

/-! ### Binary resolution

The partner always gets fresh variables first, which also makes resolving a clause with itself
safe. -/

/-- Resolves literal `i` of `given` with literal `j` of `partner`. The outer option is `none` if a
position does not exist, the inner one if the literals do not unify; names are used up either way.
-/
def resolve (occursCheck : Bool) (given partner : Filed) (i j : Int) (r : Renamer) :
    Option (Option Derived) × Renamer :=
  let (renamed, ρ, r) := partner.clause.rename r
  match at? given.clause.literals i, at? renamed j with
  | some l, some m =>
    match Subst.unifyOpposite occursCheck .empty l m with
    | none => (some none, r)
    | some σ =>
      let rest := dropAt [i] given.clause.literals ++ dropAt [j] renamed
      (some (some
        { clause := .ofList (rest.map (Literal.subst σ))
          derivation := some
            { rule := .str resolutionRule
              parents := [.int given.id, .int partner.id]
              unifier := some (.ofSubst σ)
              partnerRenaming := some (.ofSubst ρ)
              indices := [.int i, .int j]
              depth := given.derived.nextDepth [partner.derived] } }), r)
  | _, _ => (none, r)

/-- Why a value does not say where a literal stands. -/
inductive PositionError where
  | notPosition
  | missing

/-- The same with positions of any kind, which the derivation records as they are given. -/
def resolveAt (occursCheck : Bool) (given partner : Filed) (i j : Item) (r : Renamer) :
    Except PositionError (Option Derived) × Renamer :=
  let used := (partner.clause.rename r).2.2
  match i.int?, j.int? with
  | none, _ => (.error .notPosition, used)
  | some m, none =>
    (.error (if (at? given.clause.literals m).isSome then .notPosition else .missing), used)
  | some m, some n =>
    match resolve occursCheck given partner m n r with
    | (none, r) => (.error .missing, r)
    | (some d, r) =>
      (.ok (d.map fun d =>
        { d with derivation := d.derivation.map fun e => { e with indices := [i, j] } }), r)

/-- Resolves `given` with a list of partners at given positions. -/
def resolveEach (halt : Halt) (occursCheck : Bool) (given : Filed) :
    List (Nat × Filed × Nat) → Renamer → List Derived × Renamer
  | [], r => ([], r)
  | (i, partner, j) :: rest, r =>
    match resolve occursCheck given partner i j r with
    | (some (some d), r) =>
      if halt d then ([d], r)
      else
        let (ds, r) := resolveEach halt occursCheck given rest r
        (d :: ds, r)
    | (_, r) => resolveEach halt occursCheck given rest r

/-- The places at which `given` meets an active literal of opposite sign. -/
def meetings (s : Store) (given : Filed) : List (Nat × Filed × Nat) :=
  given.clause.literals.zipIdx.flatMap fun (l, i) =>
    (s.candidates l).filterMap fun c => (s.arena.filed? c.id).map fun p => (i, p, c.position)

/-- The places at which two clauses meet. -/
def meetingsWith (given partner : Filed) : List (Nat × Filed × Nat) :=
  given.clause.literals.zipIdx.flatMap fun (l, i) =>
    (partner.clause.literals.zipIdx.filter fun p => p.1.key == l.oppositeKey).map fun p =>
      (i, partner, p.2)

/-- Resolvents of `given` with active clauses, up to one at which `halt` holds. -/
def resolventsUpTo (halt : Halt) (occursCheck : Bool) (s : Store) (given : Filed) (r : Renamer) :
    List Derived × Renamer :=
  resolveEach halt occursCheck given (meetings s given) r

/-- All resolvents of `given` with active clauses. -/
def resolvents (occursCheck : Bool) (s : Store) (given : Filed) (r : Renamer) :
    List Derived × Renamer :=
  resolventsUpTo .never occursCheck s given r

/-- Resolvents of two clauses, up to one at which `halt` holds. -/
def resolventsWith (halt : Halt) (occursCheck : Bool) (given partner : Filed) (r : Renamer) :
    List Derived × Renamer :=
  resolveEach halt occursCheck given (meetingsWith given partner) r

end Inference

end Elenchus

import Elenchus.Subst.Basic

/-!
Unification and one-way matching of terms. Of two variables the left one is bound; without the
occurs check a variable may be bound to a term that contains it.
-/

namespace Elenchus

namespace Subst

/-- Unifies two lists position by position, carrying the substitution along. -/
def unifyListWith (unify : Subst → Term → Term → Option Subst) :
    Subst → List Term → List Term → Option Subst
  | σ, [], [] => some σ
  | σ, s :: ss, t :: ts => (unify σ s t).bind fun τ => unifyListWith unify τ ss ts
  | _, _, _ => none

/-- Unification of terms that are never more than `depth` applications deep under the substitution
at hand. -/
def unifyWithin (occursCheck : Bool) : (depth : Nat) → Subst → Term → Term → Option Subst
  | 0, _, _, _ => none
  | depth + 1, σ, s, t =>
    let s := s.subst σ
    let t := t.subst σ
    if s = t then some σ else
      match s, t with
      | .var x, t => if occursCheck && t.mentions x then none else some (σ.bind x t)
      | s, .var y => if occursCheck && s.mentions y then none else some (σ.bind y s)
      | .app f ss, .app g ts =>
        if f = g then unifyListWith (unifyWithin occursCheck depth) σ ss ts else none

/-- Total size of the values. -/
def valueSize (σ : Subst) : Nat := Term.sizeList (σ.bindings.map Prod.snd)

/-- Each new binding at most doubles the depth of the terms in play, and there are no more bindings
to add than symbol occurrences at the start. The summand leaves room for substitutions that are not
idempotent. -/
def depthBound (σ : Subst) (size : Nat) : Nat :=
  let n := size + σ.valueSize
  2 * n * Nat.pow 2 n + 1000

def unify (occursCheck : Bool) (σ : Subst) (s t : Term) : Option Subst :=
  unifyWithin occursCheck (σ.depthBound (s.size + t.size)) σ s t

def unifyList (occursCheck : Bool) (σ : Subst) (ss ts : List Term) : Option Subst :=
  unifyListWith
    (unifyWithin occursCheck (σ.depthBound (Term.sizeList ss + Term.sizeList ts))) σ ss ts

/-! ### Matching

Only variables of the pattern are bound, and those of the target stand for themselves. A variable
bound to itself stays bound, because it is pinned to that value. -/

mutual
/-- Extends `σ` so that it takes the pattern to the target. -/
def matchTerm (σ : Subst) : (pattern target : Term) → Option Subst
  | .var x, t =>
    match σ.get? x with
    | some u => if u = t then some σ else none
    | none => some (σ.pin x t)
  | .app f ps, .app g ts => if f = g then matchList σ ps ts else none
  | .app _ _, .var _ => none

def matchList (σ : Subst) : (patterns targets : List Term) → Option Subst
  | [], [] => some σ
  | p :: ps, t :: ts => (matchTerm σ p t).bind fun τ => matchList τ ps ts
  | _, _ => none
end

end Subst

end Elenchus

import Elenchus.Assoc
import Elenchus.Term.Basic

/-!
Substitutions as ordered finite maps from variables to terms, applied in one simultaneous pass.
-/

namespace Elenchus

/-- Bindings in order, each variable bound at most once. -/
structure Subst where
  bindings : List (String × Term)
  nodup : (bindings.map Prod.fst).Nodup

namespace Subst

instance : DecidableEq Subst := fun σ τ =>
  if h : σ.bindings = τ.bindings then isTrue (by cases σ; cases τ; simp_all)
  else isFalse fun e => h (e ▸ rfl)

def empty : Subst := ⟨[], by simp⟩

instance : Inhabited Subst := ⟨empty⟩

/-- The bound variables in order. -/
def domain (σ : Subst) : List String := σ.bindings.map Prod.fst

def get? (σ : Subst) (x : String) : Option Term := σ.bindings.lookup x

def binds (σ : Subst) (x : String) : Bool := (σ.get? x).isSome

end Subst

mutual
/-- One simultaneous pass of `σ` over a term. -/
def Term.subst (σ : Subst) : Term → Term
  | .var x => (σ.get? x).getD (.var x)
  | .app f ts => .app f (Term.substList σ ts)

def Term.substList (σ : Subst) : List Term → List Term
  | [] => []
  | t :: ts => t.subst σ :: Term.substList σ ts
end

theorem Term.substList_eq_map (σ : Subst) (ts : List Term) :
    Term.substList σ ts = ts.map (Term.subst σ) := by
  induction ts with
  | nil => rfl
  | cons t ts ih => simp [Term.substList, ih]

namespace Subst

/-- A binding of a variable to itself changes nothing. -/
def isIdentity (b : String × Term) : Bool := b.2 == .var b.1

theorem nodup_filter {p : String × Term → Bool} {bs : List (String × Term)}
    (h : (bs.map Prod.fst).Nodup) : ((bs.filter p).map Prod.fst).Nodup :=
  h.sublist (List.filter_sublist.map Prod.fst)

/-- Leaves out the bindings of a variable to itself. -/
def proper (σ : Subst) : Subst :=
  ⟨σ.bindings.filter (!isIdentity ·), nodup_filter σ.nodup⟩

/-- Binds `x` to `t` as it stands, also if `t` is `x` itself. -/
def pin (σ : Subst) (x : String) (t : Term) : Subst := ⟨put x t σ.bindings, nodup_put σ.nodup⟩

/-- Reads a list of pairs: a later pair for the same variable replaces the value and keeps the
place, and identity pairs are left out. -/
def ofList (ps : List (String × Term)) : Subst :=
  (ps.foldl (fun σ p => σ.pin p.1 p.2) empty).proper

def single (x : String) (t : Term) : Subst := ofList [(x, t)]

/-- Applies `f` to every value. -/
def mapValues (σ : Subst) (f : Term → Term) : Subst :=
  ⟨σ.bindings.map fun b => (b.1, f b.2), by
    have h : (σ.bindings.map fun b => (b.1, f b.2)).map Prod.fst = σ.bindings.map Prod.fst := by
      simp
    exact h ▸ σ.nodup⟩

/-- Adds `x ↦ t`, with the values bound so far brought up to date. -/
def bind (σ : Subst) (x : String) (t : Term) : Subst :=
  ((σ.mapValues (Term.subst (single x t))).pin x t).proper

/-- First `σ`, then `τ`. -/
def compose (σ τ : Subst) : Subst :=
  (τ.bindings.foldl (fun ρ b => if ρ.binds b.1 then ρ else ρ.pin b.1 b.2)
    (σ.mapValues (Term.subst τ))).proper

/-- Every value is a variable, and no two are the same. -/
def isRenaming (σ : Subst) : Bool :=
  σ.bindings.all (fun b => match b.2 with | .var _ => true | .app _ _ => false) &&
    decide (σ.bindings.map Prod.snd).Nodup

/-- The same bindings in any order. -/
def same (σ τ : Subst) : Bool :=
  σ.bindings.length == τ.bindings.length && σ.bindings.all fun b => τ.get? b.1 == some b.2

def bindingText (b : String × Term) : String := b.1 ++ " ↦ " ++ b.2.text

def text (σ : Subst) : String :=
  "\x7b" ++ ", ".intercalate (σ.bindings.map bindingText) ++ "\x7d"

end Subst

end Elenchus

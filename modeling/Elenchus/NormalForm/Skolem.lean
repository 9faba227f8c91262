import Elenchus.NormalForm.Negation
import Elenchus.Notation.Printer
import Elenchus.Signature.Basic

/-!
Skolemization. Bound variables get names of their own first; then each existential variable gives
way to a fresh function of the universal variables around it.
-/

namespace Elenchus

mutual
/-- Renames variables by an association list in which earlier pairs hide later ones. -/
def Term.rename (ρ : List (String × String)) : Term → Term
  | .var x => .var ((ρ.lookup x).getD x)
  | .app f ts => .app f (Term.renameList ρ ts)

def Term.renameList (ρ : List (String × String)) : List Term → List Term
  | [] => []
  | t :: ts => t.rename ρ :: Term.renameList ρ ts
end

namespace Formula

/-- The renaming inside a quantifier whose variable is now called `fresh`. -/
def extendRenaming (ρ : List (String × String)) (fresh : String) :
    Binder → List (String × String)
  | .var x => (x, fresh) :: ρ
  | .other _ => ρ

/-- Gives every quantifier a fresh variable. An inner quantifier of a name hides an outer one. -/
def standardizeFrom (ρ : List (String × String)) : Formula → Signature → Formula × Signature
  | .atomic a, sig => (.atomic { a with args := a.args.map (Term.rename ρ) }, sig)
  | .not f, sig =>
    let (f, sig) := f.standardizeFrom ρ sig
    (.not f, sig)
  | .and f g, sig =>
    let (f, sig) := f.standardizeFrom ρ sig
    let (g, sig) := g.standardizeFrom ρ sig
    (.and f g, sig)
  | .or f g, sig =>
    let (f, sig) := f.standardizeFrom ρ sig
    let (g, sig) := g.standardizeFrom ρ sig
    (.or f g, sig)
  | .implies f g, sig =>
    let (f, sig) := f.standardizeFrom ρ sig
    let (g, sig) := g.standardizeFrom ρ sig
    (.implies f g, sig)
  | .iff f g, sig =>
    let (f, sig) := f.standardizeFrom ρ sig
    let (g, sig) := g.standardizeFrom ρ sig
    (.iff f g, sig)
  | .all x f, sig =>
    let (y, sig) := sig.freshVariable (x.name?.getD "")
    let (f, sig) := f.standardizeFrom (extendRenaming ρ y x) sig
    (.all (.var y) f, sig)
  | .ex x f, sig =>
    let (y, sig) := sig.freshVariable (x.name?.getD "")
    let (f, sig) := f.standardizeFrom (extendRenaming ρ y x) sig
    (.ex (.var y) f, sig)
  | .stray i, sig => (.stray i, sig)

def standardize (f : Formula) (sig : Signature) : Formula × Signature := f.standardizeFrom [] sig

def standardize? (f : Formula) (sig : Signature) : Except Misshape (Formula × Signature) :=
  match f.namingFault with
  | some fault => .error fault
  | none => .ok (f.standardize sig)

/-- The terms among some binders. -/
def binderTerms (scope : List Binder) : List Term :=
  scope.filterMap fun b =>
    match b.item with
    | .term t => some t
    | _ => none

/-- Replaces existential variables by Skolem terms over the universal ones in `scope`; `σ` holds
the replacements made so far. -/
def skolemizeFrom (scope : List Binder) (σ : Subst) : Formula → Signature → Formula × Signature
  | .atomic a, sig => (.atomic (a.subst σ), sig)
  | .not (.atomic a), sig => (.not (.atomic (a.subst σ)), sig)
  | .and f g, sig =>
    let (f, sig) := f.skolemizeFrom scope σ sig
    let (g, sig) := g.skolemizeFrom scope σ sig
    (.and f g, sig)
  | .or f g, sig =>
    let (f, sig) := f.skolemizeFrom scope σ sig
    let (g, sig) := g.skolemizeFrom scope σ sig
    (.or f g, sig)
  | .all x f, sig =>
    let (f, sig) := f.skolemizeFrom (scope ++ [x]) σ sig
    (.all x f, sig)
  | .ex (.var x) f, sig =>
    let (name, sig) := sig.freshSkolem (.int scope.length)
    f.skolemizeFrom scope (σ.bind x (.app name (binderTerms scope))) sig
  | .ex (.other _) f, sig =>
    f.skolemizeFrom scope σ (sig.freshSkolem (.int scope.length)).2
  | f, sig => (f, sig)

def skolemize (f : Formula) (sig : Signature) : Formula × Signature :=
  f.skolemizeFrom [] .empty sig

/-- The first thing, from left to right, that is in the way of Skolem terms: a subformula that does
not belong into a negation normal form, or an existential quantifier below a universal one that
does not stand with a term, or that no replacement can be recorded for. -/
def skolemFault (scope : List Binder) : Formula → Option Misshape
  | .atomic _ => none
  | .not (.atomic _) => none
  | .and f g | .or f g => f.skolemFault scope <|> g.skolemFault scope
  | .all x f => f.skolemFault (scope ++ [x])
  | .ex b f =>
    match scope.find? fun x => (binderTerms [x]).isEmpty with
    | some x => some (.notTerm x.item)
    | none => binderMisshape b <|> f.skolemFault scope
  | f => some (.notNegationNormal f)

def skolemize? (f : Formula) (sig : Signature) : Except Misshape (Formula × Signature) :=
  match f.skolemFault [] with
  | some fault => .error fault
  | none => .ok (f.skolemize sig)

end Formula

end Elenchus

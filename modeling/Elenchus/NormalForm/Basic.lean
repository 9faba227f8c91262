import Elenchus.NormalForm.Skolem
import Elenchus.Proof.Derivation
import Elenchus.Signature.Check

/-! Clause normal form. Free variables are read universally. -/

namespace Elenchus

/-! ### The matrix of a Skolemized formula -/

namespace Formula

/-- Leaves out universal quantifiers: what remains is read universally. -/
def matrix : Formula → Formula
  | .and f g => .and f.matrix g.matrix
  | .or f g => .or f.matrix g.matrix
  | .all _ f => f.matrix
  | f => f

def matrix? (f : Formula) : Except Misshape Formula :=
  match f.shapeFault ⟨true, false⟩ with
  | some g => .error (.notSkolemized g)
  | none => .ok f.matrix

/-- Distributes disjunctions over conjunctions; the left operand varies slowest. -/
def conjuncts : Formula → List (List Literal)
  | .atomic a => [[.pos a]]
  | .not (.atomic a) => [[.neg a]]
  | .and f g => f.conjuncts ++ g.conjuncts
  | .or f g => f.conjuncts.flatMap fun ls => g.conjuncts.map (ls ++ ·)
  | _ => []

def conjuncts? (f : Formula) : Except Misshape (List (List Literal)) :=
  match f.shapeFault ⟨false, false⟩ with
  | some g => .error (.notMatrix g)
  | none => .ok f.conjuncts

end Formula

def Literal.formula (l : Literal) : Formula :=
  if l.positive then .atomic l.atom else .not (.atomic l.atom)

/-- The universally closed disjunction that a clause stands for. -/
def Clause.formula? (c : Clause) : Except Formula.Misshape Formula :=
  match Formula.disjunction? (c.literals.map Literal.formula) with
  | some f => .ok f.closure
  | none => .error .emptyClause

/-! ### Stages

The stages on the way to clauses, one by one. Each takes the formula that the one before has left;
the conjuncts of the last formula are the clauses. -/

inductive Stage where
  | eliminate
  | negate
  | standardize
  | skolemize
  | dropUniversals
  deriving DecidableEq

namespace Stage

def all : List Stage := [.eliminate, .negate, .standardize, .skolemize, .dropUniversals]

def name : Stage → String
  | .eliminate => "eliminate"
  | .negate => "nnf"
  | .standardize => "standardize"
  | .skolemize => "skolemize"
  | .dropUniversals => "drop"

/-- The stages from a named one on. -/
def startingAt (name : String) : List Stage := all.dropWhile fun s => s.name != name

def apply (f : Formula) (sig : Signature) : Stage → Except Formula.Misshape (Formula × Signature)
  | .eliminate => f.eliminate?.map fun g => (g, sig)
  | .negate => f.nnf?.map fun g => (g, sig)
  | .standardize => f.standardize? sig
  | .skolemize => f.skolemize? sig
  | .dropUniversals => f.matrix?.map fun g => (g, sig)

end Stage

/-! ### Clauses -/

/-- Why a formula has no clauses: it is refused by the check, or is no formula at all. -/
inductive NormalFormError where
  | malformed (e : Malformed)
  | misshape (e : Formula.Misshape)

/-- Drops clauses that are alike and keeps the first of them. -/
def dropAlike : List Clause → List Clause
  | [] => []
  | c :: cs => c :: (dropAlike cs).filter fun d => !c.alike d

namespace Formula

/-- The clauses of a formula without stray items, and the table with the symbols handed out. -/
def clauses (f : Formula) (sig : Signature) : List Clause × Signature :=
  let (g, sig) := f.closure.nnf.standardize sig
  let (g, sig) := g.skolemize sig
  (dropAlike (g.matrix.conjuncts.map Clause.ofList), sig)

end Formula

/-- What is recorded with the clauses of a formula, and how the formula is looked at. -/
structure NormalFormOptions where
  source : Item := .null
  role : Item := .str assumptionRule
  rule : Item := .str assumptionRule
  allowReserved : Bool := false
  check : Bool := true
  /-- How the numbers of arguments were written, symbol by symbol. -/
  arities : List Item := []

namespace Signature

/-- The clauses without a check of the formula, and the table after them. Only stray items and
binders that are no names of variables are refused. -/
def normalizeUnchecked (sig : Signature) (o : NormalFormOptions) (f : Formula) :
    Except NormalFormError (List Derived) × Signature :=
  match f.freeVarsFault <|> f.namingFault with
  | some fault => (.error (.misshape fault), sig)
  | none =>
    let (cs, sig) := f.clauses sig
    (.ok (cs.map fun c => ⟨c, some (.premise o.source o.role o.rule)⟩), sig)

/-- The clauses after a check if there has to be one. A formula that is refused leaves the table as
the check has left it. -/
def normalizeChecked (sig : Signature) (o : NormalFormOptions) (f : Formula) :
    Except NormalFormError (List Derived) × Signature :=
  if o.check then
    match sig.check o.allowReserved o.arities f with
    | (sig, some e) => (.error (.malformed e), sig)
    | (sig, none) => sig.normalizeUnchecked o f
  else sig.normalizeUnchecked o f

/-- The clauses of a formula. All is done on a copy of the table, which takes its place in the
end. -/
def normalize (sig : Signature) (o : NormalFormOptions) (f : Formula) :
    Except NormalFormError (List Derived) × Signature :=
  match f with
  | .stray i => (.error (.malformed (.notFormula (.stray i))), sig)
  | f =>
    match sig.normalizeChecked o f with
    | (.ok ds, copy) => (.ok ds, copy)
    | (.error e, _) => (.error e, sig)

end Signature

end Elenchus

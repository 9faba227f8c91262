import Elenchus.Subst.Unify

/-!
Atoms and literals. The key of a literal is what an index looks at: predicate, number of arguments
and sign.
-/

namespace Elenchus

structure Atom where
  pred : String
  args : List Term
  deriving DecidableEq, Inhabited

namespace Atom

def predicate (a : Atom) : Symbol := ⟨a.pred, a.args.length⟩

def vars (a : Atom) : List String := Term.varsList a.args

/-- The function symbols and constants below the predicate. -/
def symbols (a : Atom) : List Symbol := Term.symbolsList a.args

def depth (a : Atom) : Nat := Term.depthList a.args

def size (a : Atom) : Nat := 1 + Term.sizeList a.args

def subst (σ : Subst) (a : Atom) : Atom := { a with args := a.args.map (Term.subst σ) }

/-- An atom is written like a term with its predicate in front. -/
def text (a : Atom) : String := (Term.app a.pred a.args).text

end Atom

/-- What an index tells literals apart by. -/
structure LiteralKey where
  pred : String
  arity : Nat
  positive : Bool
  deriving DecidableEq

structure Literal where
  atom : Atom
  positive : Bool
  deriving DecidableEq, Inhabited

namespace Literal

def pos (a : Atom) : Literal := ⟨a, true⟩

def neg (a : Atom) : Literal := ⟨a, false⟩

def negate (l : Literal) : Literal := { l with positive := !l.positive }

def key (l : Literal) : LiteralKey := ⟨l.atom.pred, l.atom.args.length, l.positive⟩

/-- The key of the literals that can be resolved with `l`. -/
def oppositeKey (l : Literal) : LiteralKey := ⟨l.atom.pred, l.atom.args.length, !l.positive⟩

def isComplementOf (l m : Literal) : Bool := l.positive != m.positive && l.atom == m.atom

def vars (l : Literal) : List String := l.atom.vars

def size (l : Literal) : Nat := l.atom.size

def subst (σ : Subst) (l : Literal) : Literal := { l with atom := l.atom.subst σ }

def text (l : Literal) : String := (if l.positive then "" else "¬") ++ l.atom.text

/-- Predicates that carry the answer of a query start with this. -/
def answerMark : String := "$answer"

def isAnswer (l : Literal) : Bool := answerMark.toList.isPrefixOf l.atom.pred.toList

end Literal

namespace Subst

def unifyAtoms (occursCheck : Bool) (σ : Subst) (a b : Atom) : Option Subst :=
  if a.predicate = b.predicate then unifyList occursCheck σ a.args b.args else none

/-- Unifies the atoms of two literals of opposite sign. -/
def unifyOpposite (occursCheck : Bool) (σ : Subst) (l m : Literal) : Option Subst :=
  if l.positive = m.positive then none else unifyAtoms occursCheck σ l.atom m.atom

/-- Unifies the atoms of two literals of the same sign. -/
def unifyAlike (occursCheck : Bool) (σ : Subst) (l m : Literal) : Option Subst :=
  if l.positive = m.positive then unifyAtoms occursCheck σ l.atom m.atom else none

def matchLiteral (σ : Subst) (pattern target : Literal) : Option Subst :=
  if pattern.positive = target.positive ∧ pattern.atom.pred = target.atom.pred then
    matchList σ pattern.atom.args target.atom.args
  else none

end Subst

end Elenchus

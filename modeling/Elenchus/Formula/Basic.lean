import Elenchus.Item.Basic

/-!
First-order formulas as callers build them: a quantifier may bind something that is no variable,
and a stray item may stand where a formula belongs.
-/

namespace Elenchus

/-- What a quantifier stands with. -/
inductive Binder where
  | var (x : String)
  | other (i : Item)
  deriving Inhabited

namespace Binder

def ofItem : Item → Binder
  | .term (.var x) => .var x
  | i => .other i

def item : Binder → Item
  | .var x => .term (.var x)
  | .other i => i

def text (b : Binder) : String := b.item.text

/-- A list or a map cannot be taken out of a set of variables. -/
def isRemovable (b : Binder) : Bool := b.item.isKey

/-- Variables and constants have a name. -/
def name? : Binder → Option String
  | .var x => some x
  | .other (.term (.var x)) => some x
  | .other (.term (.app c [])) => some c
  | .other _ => none

end Binder

inductive Formula where
  | atomic (a : Atom)
  | not (f : Formula)
  | and (f g : Formula)
  | or (f g : Formula)
  | implies (f g : Formula)
  | iff (f g : Formula)
  | all (x : Binder) (f : Formula)
  | ex (x : Binder) (f : Formula)
  | stray (i : Item)
  deriving Inhabited

namespace Formula

/-- The formula written with the names of its constructors. -/
def describe : Formula → String
  | .atomic a => "Atomic(" ++ a.text ++ ")"
  | .not f => "Not(" ++ f.describe ++ ")"
  | .and f g => "And(" ++ f.describe ++ ", " ++ g.describe ++ ")"
  | .or f g => "Or(" ++ f.describe ++ ", " ++ g.describe ++ ")"
  | .implies f g => "Implies(" ++ f.describe ++ ", " ++ g.describe ++ ")"
  | .iff f g => "Iff(" ++ f.describe ++ ", " ++ g.describe ++ ")"
  | .all x f => "ForAll(" ++ x.text ++ ", " ++ f.describe ++ ")"
  | .ex x f => "Exists(" ++ x.text ++ ", " ++ f.describe ++ ")"
  | .stray i => i.text

/-- Equality of formulas inside of others; numbers among stray items by value. -/
def same : Formula → Formula → Bool
  | .atomic a, .atomic b => a == b
  | .not f, .not g => f.same g
  | .and f g, .and h k | .or f g, .or h k | .implies f g, .implies h k | .iff f g, .iff h k =>
    f.same h && g.same k
  | .all x f, .all y g | .ex x f, .ex y g => x.item.alike y.item && f.same g
  | .stray i, .stray j => i.alike j
  | _, _ => false

/-- Whether all stray items can be keys. -/
def isKey : Formula → Bool
  | .atomic _ => true
  | .not f => f.isKey
  | .and f g | .or f g | .implies f g | .iff f g => f.isKey && g.isKey
  | .all x f | .ex x f => x.item.isKey && f.isKey
  | .stray i => i.isKey

/-- Equality of formulas as keys; nothing is said of equal ones that cannot be keys. -/
def equal? (f g : Formula) : Option Bool :=
  let equal := match f, g with
    | .stray i, .stray j => i.same j
    | f, g => f.same g
  if equal && !f.isKey then none else some equal

/-- Equality of collections of formulas. -/
def sameAll (fs gs : List Formula) : Bool :=
  fs.length == gs.length && (fs.zip gs).all fun (f, g) => f.same g

/-- The first stray item from left to right. -/
def firstStray : Formula → Option Item
  | .atomic _ => none
  | .not f | .all _ f | .ex _ f => f.firstStray
  | .and f g | .or f g | .implies f g | .iff f g => f.firstStray <|> g.firstStray
  | .stray i => some i

/-- All subformulas in pre-order, the formula itself first. -/
def subformulas : Formula → List Formula
  | .atomic a => [.atomic a]
  | .not f => .not f :: f.subformulas
  | .and f g => .and f g :: (f.subformulas ++ g.subformulas)
  | .or f g => .or f g :: (f.subformulas ++ g.subformulas)
  | .implies f g => .implies f g :: (f.subformulas ++ g.subformulas)
  | .iff f g => .iff f g :: (f.subformulas ++ g.subformulas)
  | .all x f => .all x f :: f.subformulas
  | .ex x f => .ex x f :: f.subformulas
  | .stray i => [.stray i]

/-- The atoms from left to right. -/
def atoms : Formula → List Atom
  | .atomic a => [a]
  | .not f | .all _ f | .ex _ f => f.atoms
  | .and f g | .or f g | .implies f g | .iff f g => f.atoms ++ g.atoms
  | .stray _ => []

/-- Free variables, with repetitions. A binder that is no variable binds nothing. -/
def freeVars : Formula → List String
  | .atomic a => a.vars
  | .not f => f.freeVars
  | .and f g | .or f g | .implies f g | .iff f g => f.freeVars ++ g.freeVars
  | .all (.var x) f | .ex (.var x) f => f.freeVars.filter (· != x)
  | .all _ f | .ex _ f => f.freeVars
  | .stray _ => []

/-- Free variables, each once, in the order in which their names first occur. -/
def freeVarsInOrder (f : Formula) : List String :=
  let free := f.freeVars
  (f.atoms.flatMap Atom.vars).eraseDups.filter free.contains

def isClosed (f : Formula) : Bool := f.freeVars.isEmpty

/-- Quantifies over the free variables, the first one outermost. -/
def closure (f : Formula) : Formula :=
  f.freeVarsInOrder.foldr (fun x g => .all (.var x) g) f

/-- The formula below its leading universal quantifiers. -/
def belowUniversals : Formula → Formula
  | .all _ f => f.belowUniversals
  | f => f

def isLiteral : Formula → Bool
  | .atomic _ | .not (.atomic _) => true
  | _ => false

/-- Implications and equivalences. -/
def isConditional : Formula → Bool
  | .implies _ _ | .iff _ _ => true
  | _ => false

/-- Joins formulas from the left. -/
def conjunction? : List Formula → Option Formula
  | [] => none
  | f :: fs => some (fs.foldl .and f)

/-- Joins formulas from the left. -/
def disjunction? : List Formula → Option Formula
  | [] => none
  | f :: fs => some (fs.foldl .or f)

/-- Reasons to refuse a tree because of its shape. -/
inductive Misshape where
  | notFormula (f : Formula)
  | notNegationNormal (f : Formula)
  | notSkolemized (f : Formula)
  | notMatrix (f : Formula)
  | namelessBinder (b : Binder)
  | unremovableBinder (b : Binder)
  | notTerm (i : Item)
  | noConjuncts
  | noDisjuncts
  | emptyClause

/-- Nothing is said about a binder, whatever is wrong with it. -/
def Misshape.message : Misshape → Option String
  | .notFormula f => some ("Expected Formula, got " ++ f.describe)
  | .notNegationNormal f => some ("Expected formula in negation normal form, got " ++ f.describe)
  | .notSkolemized f => some ("Expected Skolemized formula, got " ++ f.describe)
  | .notMatrix f =>
    some ("Expected quantifier-free formula in negation normal form, got " ++ f.describe)
  | .namelessBinder _ | .unremovableBinder _ => none
  | .notTerm i => some ("Expected Term, got " ++ i.text)
  | .noConjuncts => some "conjunction() needs at least one formula"
  | .noDisjuncts => some "disjunction() needs at least one formula"
  | .emptyClause => some "The empty clause has no formula counterpart"

/-- A binder that a variable cannot be taken for. -/
def binderMisshape (b : Binder) : Option Misshape :=
  if b.isRemovable then none else some (.unremovableBinder b)

/-- What is in the way of telling the free variables: from left to right, a body before what binds
it. -/
def freeVarsFault : Formula → Option Misshape
  | .atomic _ => none
  | .not f => f.freeVarsFault
  | .and f g | .or f g | .implies f g | .iff f g => f.freeVarsFault <|> g.freeVarsFault
  | .all b f | .ex b f => f.freeVarsFault <|> binderMisshape b
  | .stray i => some (.notFormula (.stray i))

/-- Passes on a value that hangs on the free variables. -/
def ifBindable {α : Type} (f : Formula) (value : α) : Except Misshape α :=
  match f.freeVarsFault with
  | some fault => .error fault
  | none => .ok value

/-- Passes a value on unless the formula holds a stray item. -/
def unlessStray {α : Type} (f : Formula) (value : α) : Except Misshape α :=
  match f.firstStray with
  | some i => .error (.notFormula (.stray i))
  | none => .ok value

end Formula

end Elenchus

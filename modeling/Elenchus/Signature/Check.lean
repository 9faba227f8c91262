import Elenchus.Signature.Basic

/-!
Which formulas are accepted. Quantifiers are looked at first, then symbols are recorded atom by
atom. What was recorded before a failure stays recorded.
-/

namespace Elenchus

/-- One occurrence of a symbol. -/
structure SymbolUse where
  name : String
  entry : SymbolEntry

/-- Names that start with `$` are kept for the reasoner's own predicates. -/
def isReserved (name : String) : Bool := name.toList.head? == some '$'

namespace Formula

/-- The first quantifier or subformula in pre-order that is refused. -/
def binderFault : (path : List String) → Formula → Option Malformed
  | _, .atomic _ => none
  | path, .not f => f.binderFault path
  | path, .and f g | path, .or f g | path, .implies f g | path, .iff f g =>
    f.binderFault path <|> g.binderFault path
  | path, .all (.var x) f | path, .ex (.var x) f =>
    if path.contains x then some (.boundTwice x) else f.binderFault (x :: path)
  | _, .all b _ | _, .ex b _ => some (.binder b)
  | _, .stray i => some (.strayFormula (.stray i))

/-- The names of all bound variables. -/
def boundNames : Formula → List String
  | .atomic _ | .stray _ => []
  | .not f => f.boundNames
  | .and f g | .or f g | .implies f g | .iff f g => f.boundNames ++ g.boundNames
  | .all (.var x) f | .ex (.var x) f => x :: f.boundNames
  | .all _ f | .ex _ f => f.boundNames

/-- The symbols of an atom in the order in which they are recorded. -/
def atomUses (a : Atom) : List SymbolUse :=
  ⟨a.pred, .predicate, .int a.args.length⟩ ::
    a.symbols.map fun s => ⟨s.name, .function, .int s.arity⟩

/-- Uses with the numbers of arguments as they were written, as far as that is known. -/
def asWritten : List SymbolUse → (arities : List Item) → List SymbolUse
  | u :: us, n :: ns => { u with entry := { u.entry with arity := n } } :: asWritten us ns
  | us, _ => us

/-- The symbols of a formula in the order in which they are recorded. Reserved predicates are
passed over where they are allowed. -/
def uses (allowReserved : Bool) (arities : List Item) (f : Formula) : List SymbolUse :=
  (asWritten (f.atoms.flatMap atomUses) arities).filter fun u =>
    !(allowReserved && isReserved u.name && u.entry.kind.same .predicate)

end Formula

namespace Signature

def recordUse (sig : Signature) (allowReserved : Bool) (u : SymbolUse) :
    Except Malformed Signature :=
  if sig.isSkolem u.name then .error (.skolemName u.name)
  else if isReserved u.name && !allowReserved then .error (.reservedName u.name)
  else sig.declare u.name u.entry

/-- Records occurrences one by one up to the first that does not fit. -/
def record (sig : Signature) (allowReserved : Bool) :
    List SymbolUse → Signature × Option Malformed
  | [] => (sig, none)
  | u :: us =>
    match sig.recordUse allowReserved u with
    | .error e => (sig, some e)
    | .ok sig => sig.record allowReserved us

/-- Bound names that the table knows as constants or functions, in alphabetical order. -/
def clashes (sig : Signature) (bound : List String) : List String :=
  sortNames (bound.eraseDups.filter fun x =>
    match sig.find? x with
    | some e => e.kind.same .function
    | none => false)

/-- The table after the check, and the fault if there is one. `arities` says how the numbers of
arguments were written, symbol by symbol. -/
def check (sig : Signature) (allowReserved : Bool) (arities : List Item) (f : Formula) :
    Signature × Option Malformed :=
  match f.binderFault [] with
  | some e => (sig, some e)
  | none =>
    match sig.record allowReserved (f.uses allowReserved arities) with
    | (sig, some e) => (sig, some e)
    | (sig, none) =>
      match sig.clashes f.boundNames with
      | [] => (sig, none)
      | names => (sig, some (.nameClash names))

end Signature

end Elenchus

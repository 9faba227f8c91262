import Elenchus.Item.Basic

/-!
Building terms, atoms, literals and clauses from values of any kind. The first thing wrong is
reported.
-/

namespace Elenchus

/-- A symbol with its number of arguments as it was written. -/
structure WrittenSymbol where
  name : String
  arity : Item

namespace WrittenSymbol

def ofSymbol (s : Symbol) : WrittenSymbol := ⟨s.name, .int s.arity⟩

/-- The number of arguments. -/
def count (s : WrittenSymbol) : Nat := (s.arity.int?.getD 0).toNat

def text (s : WrittenSymbol) : String := s.name ++ "/" ++ s.arity.text

/-- The same name and number of arguments, however it was written. -/
def same (s t : WrittenSymbol) : Bool := s.name == t.name && s.arity.same t.arity

end WrittenSymbol

inductive ConstructError where
  | badName (what : String) (got : Item)
  | badArity (got : Item)
  | argumentCount (symbol : WrittenSymbol) (got : Nat)
  | notTerm (got : Item)
  | noArguments
  | notBool (got : Item)
  | notLiteral (got : Item)

def ConstructError.message : ConstructError → String
  | .badName what got => "Expected non-empty " ++ what ++ " name, got " ++ got.text
  | .badArity got => "Expected non-negative arity, got " ++ got.text
  | .argumentCount s got =>
    s.text ++ " expects " ++ s.arity.text ++ " arguments, got " ++ got.repr
  | .notTerm got => "Expected Term, got " ++ got.text
  | .noArguments => "Compound terms need at least one argument, use Constant instead"
  | .notBool got => "Expected bool, got " ++ got.text
  | .notLiteral got => "Expected Literal, got " ++ got.text

namespace Construct

def name (what : String) (i : Item) : Except ConstructError String :=
  match i with
  | .str s => if s = "" then .error (.badName what i) else .ok s
  | _ => .error (.badName what i)

def variableTerm (i : Item) : Except ConstructError Term := (name "variable" i).map .var

def constantTerm (i : Item) : Except ConstructError Term := (name "constant" i).map .const

/-- A symbol with its number of arguments, which is an integer and not negative. -/
def symbol (i arity : Item) : Except ConstructError WrittenSymbol := do
  let s ← name "symbol" i
  match arity.int? with
  | some n => if n < 0 then .error (.badArity arity) else .ok ⟨s, arity⟩
  | none => .error (.badArity arity)

def term : Item → Except ConstructError Term
  | .term t => .ok t
  | i => .error (.notTerm i)

def literal : Item → Except ConstructError Literal
  | .literal l => .ok l
  | i => .error (.notLiteral i)

/-- The arguments of a symbol, if they are as many terms as it takes. -/
def arguments (s : WrittenSymbol) (args : List Item) : Except ConstructError (List Term) :=
  if args.length ≠ s.count then .error (.argumentCount s args.length)
  else args.mapM term

/-- A function applied to arguments; without arguments it is a constant. -/
def application (i arity : Item) (args : List Item) : Except ConstructError Term := do
  let s ← symbol i arity
  let ts ← arguments s args
  .ok (.app s.name ts)

/-- The same, but there have to be arguments. -/
def compound (i arity : Item) (args : List Item) : Except ConstructError Term := do
  let s ← symbol i arity
  if args.isEmpty then .error .noArguments
  else
    let ts ← arguments s args
    .ok (.app s.name ts)

def atom (i arity : Item) (args : List Item) : Except ConstructError Atom := do
  let s ← symbol i arity
  let ts ← arguments s args
  .ok ⟨s.name, ts⟩

def sign : Item → Except ConstructError Bool
  | .bool b => .ok b
  | i => .error (.notBool i)

def clause (items : List Item) : Except ConstructError Clause :=
  (items.mapM literal).map Clause.ofList

end Construct

end Elenchus

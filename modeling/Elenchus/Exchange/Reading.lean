import Elenchus.Item.Construct
import Elenchus.Notation.Reader
import Elenchus.Proof.Derivation
import Elenchus.Signature.Check

/-!
Terms, literals, clauses, substitutions and formulas as JSON that callers hand in. How symbols
give their numbers of arguments is kept beside what is read, since `true` may stand for 1.
-/

namespace Elenchus.Exchange

inductive ReadError where
  | construct (e : ConstructError)
  | parse (e : Notation.ParseError)
  | misshape (e : Formula.Misshape)
  /-- A binding is not made of two parts. -/
  | notPair
  /-- A value stands where something of another kind belongs. -/
  | wrongKind

/-- What is read, and the numbers of arguments as they were written: for each atom that of the
predicate, then those of functions and constants in pre-order. -/
structure Written (α : Type) where
  value : α
  arities : List Item := []

namespace Written

/-- What is read in two parts. -/
def map₂ {α β γ : Type} (f : α → β → γ) (a : Written α) (b : Written β) : Written γ :=
  ⟨f a.value b.value, a.arities ++ b.arities⟩

def map {α β : Type} (f : α → β) (a : Written α) : Written β := ⟨f a.value, a.arities⟩

/-- What is read in several parts. -/
def all {α : Type} (parts : List (Written α)) : Written (List α) :=
  ⟨parts.map value, parts.flatMap arities⟩

/-- Symbols with their numbers of arguments as they were written. -/
def name (symbols : List Symbol) (arities : List Item) : List WrittenSymbol :=
  (symbols.zip arities).map fun (s, n) => ⟨s.name, n⟩

/-- The symbols of a term. -/
def symbols (t : Written Term) : List WrittenSymbol := name t.value.symbols t.arities

/-- The predicate of a literal. -/
def predicate (l : Written Literal) : WrittenSymbol :=
  ⟨l.value.atom.pred, l.arities.head?.getD (.int l.value.atom.args.length)⟩

/-- The functions and constants of a literal. -/
def functions (l : Written Literal) : List WrittenSymbol :=
  name l.value.atom.symbols l.arities.tail

end Written

def member (j : Json) (key : String) : Json := (j.get? key).getD .null

def itemAt (j : Json) (key : String) : Item := .ofJson (member j key)

/-- The value of a member, or another one if there is no such member. -/
def itemOr (j : Json) (key : String) (default : Item) : Item :=
  ((j.get? key).map Item.ofJson).getD default

def flagAt (j : Json) (key : String) (default : Bool) : Bool :=
  ((j.get? key).map fun v => !(Item.ofJson v).isEmptyValue).getD default

/-- The elements of a member that can be gone through; none if there is no such member. -/
def elementsAt (j : Json) (key : String) : Except ReadError (List Item) :=
  match (itemOr j key (.list [])).elements? with
  | some is => .ok is
  | none => .error .wrongKind

/-- What a value is made of: the items of a list, the characters of a text, the names of members. -/
def partsOf : Json → Except ReadError (List Json)
  | .arr js => .ok js
  | .str s => .ok (s.toList.map fun c => .str (String.singleton c))
  | .obj ms => .ok (ms.map fun m => .str m.1)
  | _ => .error .wrongKind

def listAt (j : Json) (key : String) : List Json :=
  match member j key with
  | .arr js => js
  | _ => []

def built {α : Type} (r : Except ConstructError α) : Except ReadError α := r.mapError .construct

/-- The number of arguments that a symbol is written with. -/
def arityOf (j : Json) (args : List (Written Item)) : Item := itemOr j "arity" (.int args.length)

/-- A function with its arguments. Without arguments it is a constant, unless the application is
asked for as such. -/
def readApplication (j : Json) (name : Item) (args : List (Written Item)) :
    Except ReadError (Written Item) := do
  let build := if flagAt j "raw" false then Construct.compound else Construct.application
  let arity := arityOf j args
  let args := Written.all args
  let t ← built (build name arity args.value)
  let own := if args.value.isEmpty then Item.int 0 else arity
  .ok ⟨.term t, own :: args.arities⟩

mutual
/-- A term, or a value that stands in its place. -/
def readItem : Json → Except ReadError (Written Item)
  | .obj ms =>
    let j := Json.obj ms
    match j.get? "v", j.get? "c", j.get? "f" with
    | some x, _, _ => do return ⟨.term (← built (Construct.variableTerm (.ofJson x))), []⟩
    | none, some c, _ => do
      return ⟨.term (← built (Construct.constantTerm (.ofJson c))), [.int 0]⟩
    | none, none, some f => do readApplication j (.ofJson f) (← readArguments ms)
    | none, none, none => .ok ⟨.ofJson j, []⟩
  | j => .ok ⟨.ofJson j, []⟩

/-- The arguments among the members of an object. -/
def readArguments : List (String × Json) → Except ReadError (List (Written Item))
  | [] => .ok []
  | (k, .arr js) :: ms => if k = "a" then readItems js else readArguments ms
  | (k, j) :: ms =>
    if k = "a" then
      match (Item.ofJson j).elements? with
      | some is => .ok (is.map fun i => ⟨i, []⟩)
      | none => .error .wrongKind
    else readArguments ms

def readItems : List Json → Except ReadError (List (Written Item))
  | [] => .ok []
  | j :: js => do
    let i ← readItem j
    let is ← readItems js
    .ok (i :: is)
end

def readAtom (j : Json) : Except ReadError (Written Atom) := do
  let args ← match j with
    | .obj ms => readArguments ms
    | _ => .error .wrongKind
  let arity := arityOf j args
  let args := Written.all args
  return ⟨← built (Construct.atom (itemAt j "p") arity args.value), arity :: args.arities⟩

def readLiteral (j : Json) : Except ReadError (Written Literal) := do
  return (← readAtom j).map fun a => ⟨a, !flagAt j "neg" false⟩

def readVariable (j : Json) : Except ReadError String :=
  built (Construct.name "variable" (.ofJson j))

/-- A variable and its value, which is anything that is made of two parts. -/
def readBinding (j : Json) : Except ReadError (String × Item) := do
  match ← partsOf j with
  | [x, t] =>
    let x ← readVariable x
    return (x, (← readItem t).value)
  | _ => .error .notPair

def readBindings (j : Json) : Except ReadError Bindings := do
  return .ofList (← (← partsOf j).mapM readBinding)

/-- Bindings that may be left out. -/
def bindingsAt (j : Json) (key : String) : Except ReadError (Option Bindings) :=
  match member j key with
  | .null => .ok none
  | v => some <$> readBindings v

def readDerivation (j : Json) : Except ReadError Derivation := do
  let parents ← elementsAt j "parents"
  let unifier ← bindingsAt j "unifier"
  let partnerRenaming ← bindingsAt j "renaming"
  let renamings ← (← partsOf ((j.get? "renamings").getD (.arr []))).mapM readBindings
  return {
    rule := itemAt j "rule"
    parents
    unifier
    partnerRenaming
    renamings
    indices := ← elementsAt j "indices"
    depth := itemOr j "depth" (.int 0)
    source := itemAt j "source"
    role := itemAt j "role" }

/-- Where a clause comes from: a derivation, a source that is named, or nothing that is known. -/
def readOrigin (j : Json) : Except ReadError (Option Derivation) := do
  let assumption := Item.str assumptionRule
  match j.get? "derivation", j.get? "source" with
  | some d, _ => return some (← readDerivation d)
  | none, some s =>
    return some (.premise (.ofJson s) (itemOr j "role" assumption) (itemOr j "rule" assumption))
  | none, none => return none

/-- The literals of a clause: a list, or a member of an object. -/
def readLiterals (j : Json) : Except ReadError (List (Written Literal)) :=
  (match j with
    | .arr js => js
    | _ => listAt j "lits").mapM readLiteral

/-- A clause: its literals alone, or an object that tells where they come from. -/
def readClause (j : Json) : Except ReadError (Written Derived) := do
  let derivation ← readOrigin j
  let ls := Written.all (← readLiterals j)
  return ⟨⟨.ofList ls.value, derivation⟩, ls.arities⟩

/-- What a quantifier stands with: the name of a variable, or anything else. -/
def readBinder (j : Json) : Except ReadError Binder := do
  match j with
  | .str x => return .var (← readVariable (.str x))
  | j => return .ofItem (← readItem j).value

/-- A formula with its numbers of arguments as its notation has them. -/
def ofNotation (f : Formula) : Written Formula :=
  ⟨f, (f.atoms.flatMap Formula.atomUses).map fun u => u.entry.arity⟩

/-- Formulas that are joined to one. -/
def joined (join : List Formula → Option Formula) (none? : Formula.Misshape)
    (fs : List (Written Formula)) : Except ReadError (Written Formula) :=
  let fs := Written.all fs
  match join fs.value with
  | some f => .ok ⟨f, fs.arities⟩
  | none => .error (.misshape none?)

mutual
/-- A formula: a text in the notation, or an object with one member. -/
def readFormula : Json → Except ReadError (Written Formula)
  | .str s => ((Notation.parse s).map ofNotation).mapError .parse
  | .obj [(key, .arr [x, g])] => do
    match key with
    | "forall" =>
      let b ← readBinder x
      return (← readFormula g).map (.all b)
    | "exists" =>
      let b ← readBinder x
      return (← readFormula g).map (.ex b)
    | "conj" => joined Formula.conjunction? .noConjuncts [← readFormula x, ← readFormula g]
    | "disj" => joined Formula.disjunction? .noDisjuncts [← readFormula x, ← readFormula g]
    | "and" => return (← readFormula x).map₂ .and (← readFormula g)
    | "or" => return (← readFormula x).map₂ .or (← readFormula g)
    | "implies" => return (← readFormula x).map₂ .implies (← readFormula g)
    | "iff" => return (← readFormula x).map₂ .iff (← readFormula g)
    | "junk" => return ⟨.stray (.ofJson (.arr [x, g])), []⟩
    | _ => .error .wrongKind
  | .obj [(key, .arr js)] => do
    match key with
    | "conj" => joined Formula.conjunction? .noConjuncts (← readFormulas js)
    | "disj" => joined Formula.disjunction? .noDisjuncts (← readFormulas js)
    | "junk" => return ⟨.stray (.ofJson (.arr js)), []⟩
    | _ => .error .wrongKind
  | .obj [(key, j)] => do
    match key with
    | "atom" => return (← readAtom j).map .atomic
    | "not" => return (← readFormula j).map .not
    | "junk" => return ⟨.stray (← readItem j).value, []⟩
    | _ => .error .wrongKind
  | _ => .error .wrongKind

def readFormulas : List Json → Except ReadError (List (Written Formula))
  | [] => .ok []
  | j :: js => do
    let f ← readFormula j
    let fs ← readFormulas js
    .ok (f :: fs)
end

end Elenchus.Exchange

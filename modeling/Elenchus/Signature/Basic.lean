import Elenchus.Formula.Basic
import Elenchus.Item.Construct

/-!
The symbol table: which names are predicates or functions, with how many arguments, and which of
them are Skolem symbols. It also counts the Skolem symbols and variables handed out so far.
-/

namespace Elenchus

/-- What a name stands for. Callers may declare kinds of their own. -/
inductive SymbolKind where
  | predicate
  | function
  | other (label : Item)

namespace SymbolKind

def label : SymbolKind → Item
  | .predicate => .str "predicate"
  | .function => .str "function"
  | .other label => label

def ofLabel (label : Item) : SymbolKind :=
  match label with
  | .str "predicate" => .predicate
  | .str "function" => .function
  | label => .other label

def text (k : SymbolKind) : String := k.label.plain

def same (k l : SymbolKind) : Bool := k.label.same l.label

end SymbolKind

/-- Reasons why a formula is refused. -/
inductive Malformed where
  | notFormula (f : Formula)
  | strayFormula (f : Formula)
  | binder (b : Binder)
  | boundTwice (x : String)
  | skolemName (name : String)
  | reservedName (name : String)
  | kindMismatch (name : Item) (known got : SymbolKind)
  | arityMismatch (name : Item) (known got : Item)
  | nameClash (names : List String)
  | notFact (name : Item) (formula : String)
  | notRule (name : Item) (formula : String)

def Malformed.message : Malformed → String
  | .notFormula f => "Expected Formula, got " ++ f.describe
  | .strayFormula f => "Expected formula, got " ++ f.describe
  | .binder b => "Quantifier over non-variable " ++ b.text
  | .boundTwice x => "Variable " ++ x ++ " is bound twice on one path"
  | .skolemName n => "Symbol " ++ n ++ " is reserved for Skolem functions"
  | .reservedName n => "Symbol " ++ n ++ " uses the reserved prefix '$'"
  | .kindMismatch n known got =>
    "Symbol " ++ n.plain ++ " used as " ++ got.text ++ ", previously " ++ known.text
  | .arityMismatch n known got =>
    "Symbol " ++ n.plain ++ " used with " ++ got.plain ++ " arguments, previously " ++ known.plain
  | .nameClash names =>
    "Quantified variable name(s) " ++ ", ".intercalate names ++ " also used as constant or function"
  | .notFact name formula => "Fact " ++ name.plain ++ " is not a literal: " ++ formula
  | .notRule name formula => "Rule " ++ name.plain ++ " is not an implication: " ++ formula

/-- What the table knows about a name. -/
structure SymbolEntry where
  kind : SymbolKind
  arity : Item

structure Signature where
  symbols : List (String × SymbolEntry) := []
  /-- What callers record under names that are no text. No formula uses them. -/
  labels : List (Item × SymbolEntry) := []
  skolems : List String := []
  skolemCounter : Nat := 0
  variableCounter : Nat := 0

namespace Signature

def find? (sig : Signature) (name : String) : Option SymbolEntry := sig.symbols.lookup name

def contains (sig : Signature) (name : String) : Bool := (sig.find? name).isSome

def isSkolem (sig : Signature) (name : String) : Bool := sig.skolems.contains name

/-- How a use of a name differs from what is known about it. -/
def mismatch (name : Item) (known use : SymbolEntry) : Option Malformed :=
  if !known.kind.same use.kind then some (.kindMismatch name known.kind use.kind)
  else if !known.arity.same use.arity then some (.arityMismatch name known.arity use.arity)
  else none

/-- Records the use of a name. A first use settles its kind and number of arguments. -/
def declare (sig : Signature) (name : String) (use : SymbolEntry) : Except Malformed Signature :=
  match sig.find? name with
  | none => .ok { sig with symbols := sig.symbols ++ [(name, use)] }
  | some known =>
    match mismatch (.str name) known use with
    | some e => .error e
    | none => .ok sig

def skolemName (n : Nat) : String := "sk" ++ n.repr

/-- The first number after `n` whose Skolem name is free, looking at `tries + 1` numbers. -/
def nextSkolem (sig : Signature) : (tries : Nat) → (n : Nat) → Nat
  | 0, n => n + 1
  | tries + 1, n =>
    if sig.contains (skolemName (n + 1)) then sig.nextSkolem tries (n + 1) else n + 1

/-- The name of a Skolem symbol, which the table does not know yet. One of any
`symbols.length + 1` names is free. -/
def freshSkolem (sig : Signature) (arity : Item) : String × Signature :=
  let n := sig.nextSkolem sig.symbols.length sig.skolemCounter
  let name := skolemName n
  (name,
    { sig with
      symbols := sig.symbols ++ [(name, ⟨.function, arity⟩)]
      skolems := sig.skolems ++ [name]
      skolemCounter := n })

def freshVariable (sig : Signature) (hint : String) : String × Signature :=
  let n := sig.variableCounter + 1
  (nameStem "x" hint ++ n.repr, { sig with variableCounter := n })

/-- The same for a hint that may be no text; then there is no name, but its number is used up. -/
def freshVariableLike (sig : Signature) (hint : Item) : Option String × Signature :=
  match hint with
  | .str s => (sig.freshVariable s).map some id
  | _ => (none, (sig.freshVariable "").2)

/-- The Skolem symbol for a number of arguments that may be none; what it is recorded as stays
recorded. -/
def freshSkolemSymbol (sig : Signature) (arity : Item) :
    Except ConstructError WrittenSymbol × Signature :=
  let (name, sig) := sig.freshSkolem arity
  (Construct.symbol (.str name) arity, sig)

/-- The same for a name that may be no text; `none` if it cannot be a key. -/
def declareItem (sig : Signature) (name : Item) (use : SymbolEntry) :
    Option (Except Malformed Signature) :=
  match name with
  | .str s => some (sig.declare s use)
  | name =>
    if name.isKey then
      match sig.labels.find? fun l => l.1.alike name with
      | none => some (.ok { sig with labels := sig.labels ++ [(name, use)] })
      | some (_, known) =>
        match mismatch name known use with
        | some e => some (.error e)
        | none => some (.ok sig)
    else none

/-- Everything that is recorded, by name. -/
def entries (sig : Signature) : List (Item × SymbolEntry) :=
  sig.symbols.map (fun (n, e) => (.str n, e)) ++ sig.labels

/-- Puts an entry where it belongs among entries in order; `none` if the names cannot be compared.
-/
def insertByName (e : Item × SymbolEntry) :
    List (Item × SymbolEntry) → Option (List (Item × SymbolEntry))
  | [] => some [e]
  | d :: ds => do
    if ← e.1.lt? d.1 then some (e :: d :: ds) else return d :: (← insertByName e ds)

/-- Everything that is recorded, in the order of the names; `none` if they cannot be compared. -/
def sortedEntries? (sig : Signature) : Option (List (Item × SymbolEntry)) :=
  match sig.labels with
  | [] => some ((sig.symbols.mergeSort fun a b => decide (a.1 ≤ b.1)).map fun (n, e) => (.str n, e))
  | _ => sig.entries.foldrM insertByName []

/-- Whether a value is among some names; what cannot be a key is refused. -/
def names? (names : List Item) (i : Item) : Option Bool :=
  if i.isKey then some (names.any i.alike) else none

end Signature

end Elenchus

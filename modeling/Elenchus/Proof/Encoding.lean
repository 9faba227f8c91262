import Elenchus.Json.Basic
import Elenchus.Proof.Trace

/-!
Proof traces as JSON. Terms, literals, clauses, substitutions, steps and traces are objects that
name their type in the member `_type`.
-/

namespace Elenchus

/-- An object that names its type. -/
def Json.typed (type : String) (members : List (String × Json)) : Json :=
  .obj (("_type", .str type) :: members)

mutual
def Term.toJson : Term → Json
  | .var x => .typed "Variable" [("name", .str x)]
  | .app c [] => .typed "Constant" [("name", .str c)]
  | .app f (t :: ts) =>
    .typed "Term" [("functor", .str f), ("args", .arr (t.toJson :: Term.toJsonList ts))]

def Term.toJsonList : List Term → List Json
  | [] => []
  | t :: ts => t.toJson :: Term.toJsonList ts
end

def Literal.toJson (l : Literal) : Json :=
  .typed "Literal"
    [("predicate", .str l.atom.pred), ("args", .arr (l.atom.args.map Term.toJson)),
      ("polarity", .bool l.positive)]

def Clause.toJson (c : Clause) : Json :=
  .typed "Clause" [("literals", .arr (c.literals.map Literal.toJson)), ("text", .str c.text)]

def Json.ofOption {α : Type} (f : α → Json) : Option α → Json
  | some a => f a
  | none => .null

namespace Item

/-- How a key is written as the name of a member. -/
def keyText : Item → String
  | .str s => s
  | .null => "null"
  | .bool b => if b then "true" else "false"
  | .float x => Json.floatText x
  | i => i.text

mutual
/-- Plain data as it is, and terms, literals, clauses and substitutions as objects. -/
def toJson : Item → Json
  | .null => .null
  | .bool b => .bool b
  | .int n => .int n
  | .float x => .float x
  | .str s => .str s
  | .list is => .arr (toJsonList is)
  | .map ms => .obj (toJsonMembers ms)
  | .term t => t.toJson
  | .literal l => l.toJson
  | .clause c => c.toJson
  | .subst bs => .typed "Substitution" [("bindings", .arr (toJsonBindings bs))]
  | .moment m => .str m.text
  | .bytes ns => .arr (ns.map fun (n : Nat) => .int n)
  | .set is => .arr (toJsonList is)
  | .knot _ v => v.toJson
  | .back _ => .null

def toJsonList : List Item → List Json
  | [] => []
  | i :: is => i.toJson :: toJsonList is

def toJsonMembers : List (Item × Item) → List (String × Json)
  | [] => []
  | (k, v) :: ms => (k.keyText, v.toJson) :: toJsonMembers ms

def toJsonBindings : List (Item × Item) → List Json
  | [] => []
  | (x, t) :: bs => .arr [x.toJson, t.toJson] :: toJsonBindings bs
end

end Item

def Bindings.toJson (β : Bindings) : Json :=
  .typed "Substitution"
    [("bindings", .arr (β.pairs.map fun (x, i) => .arr [(Term.var x).toJson, i.toJson]))]

namespace Proof

def Step.toJson (s : Step) : Json :=
  .typed "ProofStep"
    [("index", .int s.index), ("clause", s.clause.toJson), ("clause_id", s.label.toJson),
      ("rule", s.rule.toJson), ("parents", .arr (s.parents.map fun (p : Nat) => .int p)),
      ("parent_ids", .arr (s.parentIds.map Item.toJson)),
      ("unifier", .ofOption Bindings.toJson s.unifier), ("source", s.source.toJson)]

def Trace.toJson (t : Trace) : Json :=
  .typed "ProofTrace" [("length", .int t.length), ("steps", .arr (t.steps.map Step.toJson))]

/-- The indentation of trace files. -/
def fileIndent : Option String := some "  "

def Trace.toText (t : Trace) (indent : Option String) : String := t.toJson.render indent

end Proof

end Elenchus

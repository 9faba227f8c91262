import Elenchus.Exchange.Reading
import Elenchus.Proof.Encoding
import Elenchus.Search.Basic

/-!
The JSON that answers are made of: terms and formulas in the form in which they are read, clauses
as text, and tables by name.
-/

namespace Elenchus.Exchange

abbrev Fields := List (String × Json)

def num (key : String) (n : Nat) : String × Json := (key, .int n)
def txt (key s : String) : String × Json := (key, .str s)
def tag (key : String) (b : Bool) : String × Json := (key, .bool b)

def ofNat (n : Nat) : Json := .int n
def ofTexts (l : List String) : Json := .arr (l.map .str)
def ofNats (l : List Nat) : Json := .arr (l.map ofNat)
def ofItems (l : List Item) : Json := .arr (l.map Item.toJson)

mutual
def ofTerm : Term → Json
  | .var x => .obj [txt "v" x]
  | .app c [] => .obj [txt "c" c]
  | .app f (t :: ts) => .obj [txt "f" f, ("a", .arr (ofTerm t :: ofTerms ts))]

def ofTerms : List Term → List Json
  | [] => []
  | t :: ts => ofTerm t :: ofTerms ts
end

def atomFields (a : Atom) : Fields := [txt "p" a.pred, ("a", .arr (ofTerms a.args))]

def ofLiteral (l : Literal) : Json := .obj (atomFields l.atom ++ [tag "neg" !l.positive])

/-- A variable by its name, and anything else by itself. -/
def ofBinder : Binder → Json
  | .var x => .str x
  | .other (.term t) => ofTerm t
  | .other i => i.toJson

def ofFormula : Formula → Json
  | .atomic a => .obj [("atom", .obj (atomFields a))]
  | .not f => .obj [("not", ofFormula f)]
  | .and f g => .obj [("and", .arr [ofFormula f, ofFormula g])]
  | .or f g => .obj [("or", .arr [ofFormula f, ofFormula g])]
  | .implies f g => .obj [("implies", .arr [ofFormula f, ofFormula g])]
  | .iff f g => .obj [("iff", .arr [ofFormula f, ofFormula g])]
  | .all x f => .obj [("forall", .arr [ofBinder x, ofFormula f])]
  | .ex x f => .obj [("exists", .arr [ofBinder x, ofFormula f])]
  | .stray (.term t) => .obj [("junk", ofTerm t)]
  | .stray i => .obj [("junk", i.toJson)]

def ofSolution (bs : List (String × Term)) : Json :=
  .arr (bs.map fun b => .arr [.str b.1, ofTerm b.2])

def ofSubst (σ : Subst) : Json := ofSolution σ.bindings

def bindingsText (β : Bindings) : Json := .str β.text

/-- Each name once, in alphabetical order. -/
def ofNames (l : List String) : Json := ofTexts (sortNames l.eraseDups)

/-- The first of those that are the same. -/
def firstWritten : List WrittenSymbol → List WrittenSymbol
  | [] => []
  | s :: ss => s :: (firstWritten ss).filter fun t => !s.same t

def precedesSymbol (s t : WrittenSymbol) : Bool :=
  decide (s.name < t.name ∨ s.name = t.name ∧ s.count ≤ t.count)

/-- Each symbol once, in alphabetical order and then by the number of arguments. -/
def ofSymbols (l : List WrittenSymbol) : Json :=
  .arr (((firstWritten l).mergeSort precedesSymbol).map fun s => .arr [.str s.name, s.arity.toJson])

def ofDerivation (d : Derivation) : Json :=
  .obj [("rule", d.rule.toJson), ("parents", ofItems d.parents),
    ("unifier", .ofOption bindingsText d.unifier),
    ("renaming", .ofOption bindingsText d.partnerRenaming),
    ("renamings", .arr (d.renamings.map bindingsText)), ("indices", ofItems d.indices),
    ("depth", d.depth.toJson), ("source", d.source.toJson), ("role", d.role.toJson),
    tag "premise" d.isPremise]

def derivationOf (d : Derived) : String × Json :=
  ("derivation", .ofOption ofDerivation d.derivation)

/-- A clause with its number if it has one. -/
def brief (id : Option Nat) (c : Clause) : Json :=
  .obj [("id", .ofOption ofNat id), txt "text" c.text]

/-- The same with the derivation. -/
def full (id : Option Nat) (d : Derived) : Json :=
  .obj [("id", .ofOption ofNat id), txt "text" d.clause.text, derivationOf d]

def briefFiled (f : Filed) : Json := brief (some f.id) f.clause
def fullFiled (f : Filed) : Json := full (some f.id) f.derived

def ofSymbolEntry (name : Item) (e : SymbolEntry) : Json :=
  .arr [name.toJson, e.kind.label.toJson, e.arity.toJson]

/-- A symbol table by name; without any symbols if the names cannot be put in order. -/
def ofSignature (s : Signature) : Json :=
  .obj [("symbols", .arr ((s.sortedEntries?.getD []).map fun (n, e) => ofSymbolEntry n e)),
    ("skolems", ofNames s.skolems), num "skolem_counter" s.skolemCounter,
    num "variable_counter" s.variableCounter]

def ofStatistics (s : Statistics) : Json := .obj (s.entries.map fun (k, n) => num k n)

def ofLimit (k : Option LimitKind) : Json := .ofOption (fun k => .str k.name) k

def outcomeFields (o : Outcome) : Fields :=
  [txt "status" o.status.name, tag "final" o.status.isFinal,
    ("proof_clause_id", .ofOption ofNat o.proofId), ("limit_type", ofLimit o.stoppedBy),
    ("stats", ofStatistics o.statistics), num "arena" o.arena.size]

def ofOutcome (o : Outcome) : Json := .obj (outcomeFields o)

/-- The state of a search, with the clauses filed since it had `shown` of them. -/
def ofSearch (s : Search) (shown : Nat) : Json :=
  let new := (s.agenda.usable.arena.entries.toList.zipIdx.drop shown).map fun (d, n) =>
    full (some n) d
  .obj [txt "status" s.status.name, ("limit_type", ofLimit s.stoppedBy),
    ("stats", ofStatistics s.statistics), ("new", .arr new),
    ("usable", ofNats s.agenda.usable.active),
    ("unprocessed", ofNats (s.agenda.waiting.map Filed.id))]

def ofStep (s : Proof.Step) : Json :=
  .obj [num "index" s.index, ("clause_id", s.label.toJson), ("parents", ofNats s.parents),
    ("parent_ids", ofItems s.parentIds), ("rule", s.rule.toJson), ("source", s.source.toJson),
    derivationOf s.derived]

def ofNode (s : Proof.Step) : Json :=
  .arr [ofNat s.index, .obj [txt "clause" s.clause.text, ("rule", s.rule.toJson),
    ("source", s.source.toJson), ("clause_id", s.label.toJson)]]

/-- The numbers of a clause and its ancestors. -/
def ofAncestors (ms : List Arena.Met) : Json := ofItems (ms.map Arena.Met.label)

/-- A proof as a graph: its steps, and an edge from each parent to each child. -/
def ofGraph (t : Proof.Trace) : Json :=
  .obj [("nodes", .arr (t.steps.map ofNode)),
    ("edges", .arr (t.edges.map fun e => ofNats [e.1, e.2]))]

/-- What is always told of a proof. -/
def traceFields (t : Proof.Trace) : Fields :=
  [num "length" t.length, num "size" t.steps.length, ("render", ofTexts (t.text.splitOn "\n")),
    ("conclusion", .ofOption (fun c => .str c.text) t.conclusion),
    ("premises", .arr (t.premises.map fun s =>
      .arr [ofNat s.index, s.rule.toJson, s.source.toJson]))]

/-- The indentation that a value asks for: a text, so many blanks, or everything in one line. -/
def indentation : Item → Except ReadError (Option String)
  | .null => .ok none
  | .str s => .ok (some s)
  | i =>
    match i.int? with
    | some n => .ok (some (String.ofList (List.replicate n.toNat ' ')))
    | none => .error .wrongKind

end Elenchus.Exchange

import Elenchus.NormalForm.Basic
import Elenchus.Store.Basic

/-!
Knowledge bases: named formulas in the order in which they were added, and their clauses, of
which none subsumes another.
-/

namespace Elenchus

def factRole : String := "fact"
def ruleRole : String := "rule"

/-- A formula with its clauses. Clauses that were subsumed when they came have no number. -/
structure KnowledgeEntry where
  name : Item
  role : Item
  formula : Formula
  clauses : List (Option Nat × Derived)

structure KnowledgeBase where
  entries : List KnowledgeEntry := []
  signature : Signature := {}
  store : Store := {}
  version : Nat := 0

namespace Store

/-- Adds a clause that no active clause subsumes, and takes out those that it subsumes. -/
def insertMinimal (s : Store) (d : Derived) : Option Nat × Store :=
  match s.insert true d with
  | (none, s) => (none, s)
  | (some id, s) => (some id, (s.backSubsumed d.clause (some id)).foldl remove s)

def insertAllMinimal (s : Store) : List Derived → List (Option Nat × Derived) × Store
  | [] => ([], s)
  | d :: ds =>
    let (id, s) := s.insertMinimal d
    let (rest, s) := s.insertAllMinimal ds
    ((id, d) :: rest, s)

end Store

namespace KnowledgeBase

/-- Formulas without a name are numbered. -/
def nextName (kb : KnowledgeBase) : String := "formula_" ++ (kb.entries.length + 1).repr

/-- Adds a formula, of which `arities` says how the numbers of arguments were written. -/
def add (kb : KnowledgeBase) (name role : Item) (arities : List Item) (f : Formula) :
    Except NormalFormError KnowledgeEntry × KnowledgeBase :=
  let name := match name with
    | .null => .str kb.nextName
    | name => name
  match kb.signature.normalize { source := name, role, arities } f with
  | (.error e, signature) => (.error e, { kb with signature })
  | (.ok ds, signature) =>
    let (clauses, store) := kb.store.insertAllMinimal ds
    let entry := ⟨name, role, f, clauses⟩
    (.ok entry, { entries := kb.entries ++ [entry], signature, store, version := kb.version + 1 })

/-- A formula that an error message cannot quote is refused for that. -/
def refuse (quoted : Except Formula.Misshape String) (why : String → Malformed) :
    NormalFormError :=
  match quoted with
  | .ok text => .malformed (why text)
  | .error fault => .misshape fault

/-- Adds a literal, perhaps below universal quantifiers. -/
def addFact (kb : KnowledgeBase) (name : Item) (arities : List Item) (f : Formula) :
    Except NormalFormError KnowledgeEntry × KnowledgeBase :=
  if f.belowUniversals.isLiteral then kb.add name (.str factRole) arities f
  else (.error (refuse f.quote? (.notFact name)), kb)

/-- Adds an implication or equivalence, perhaps below universal quantifiers. -/
def addRule (kb : KnowledgeBase) (name : Item) (arities : List Item) (f : Formula) :
    Except NormalFormError KnowledgeEntry × KnowledgeBase :=
  if f.belowUniversals.isConditional then kb.add name (.str ruleRole) arities f
  else (.error (refuse f.quote? (.notRule name)), kb)

/-- The active clauses by number. -/
def clauses (kb : KnowledgeBase) : List Filed :=
  kb.store.clauses.mergeSort fun f g => decide (f.id ≤ g.id)

def reset (kb : KnowledgeBase) : KnowledgeBase := { version := kb.version + 1 }

end KnowledgeBase

end Elenchus

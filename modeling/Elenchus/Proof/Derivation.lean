import Elenchus.Item.Bindings

/-!
How a clause was obtained, recorded as it is given: whether it makes sense is for the replay to
find out.
-/

namespace Elenchus

/-- The names of the inference rules as they stand in derivations. -/
def resolutionRule : String := "resolution"
def factoringRule : String := "factoring"
def hyperresolutionRule : String := "hyperresolution"
def unitDeletionRule : String := "unit_deletion"
def subsumptionRule : String := "subsumption"

/-- The names under which clauses come in without parents. -/
def assumptionRule : String := "axiom"
def negatedGoalRule : String := "negated_conjecture"

/-- For resolution, `parents` are the given clause and its partner, `partnerRenaming` renames the
partner apart, and `indices` are the positions of the two resolved literals. For factoring,
`indices` are the two merged positions. Hyperresolution and unit deletion resolve positions
`indices` of the first parent with the unit clauses among the other parents, each under its member
of `renamings`. -/
structure Derivation where
  rule : Item
  parents : List Item := []
  unifier : Option Bindings := none
  partnerRenaming : Option Bindings := none
  renamings : List Bindings := []
  indices : List Item := []
  depth : Item := .int 0
  source : Item := .null
  role : Item := .null

namespace Derivation

/-- Whether the derivation names a rule. -/
def isBy (d : Derivation) (rule : String) : Bool :=
  match d.rule with
  | .str s => s == rule
  | _ => false

def isPremise (d : Derivation) : Bool := d.isBy assumptionRule || d.isBy negatedGoalRule

def premise (source role rule : Item) : Derivation := { rule, source, role }

end Derivation

/-- A clause with what is known about its origin. -/
structure Derived where
  clause : Clause
  derivation : Option Derivation := none

namespace Derived

/-- Inferences between the clause and the premises it came from; 0 without a derivation. -/
def depth (d : Derived) : Item :=
  match d.derivation with
  | some e => e.depth
  | none => .int 0

/-- The depth of a clause at the level of its deepest parent; nothing if the depths of the parents
cannot be compared. -/
def deepest (d : Derived) (ds : List Derived) : Item :=
  (Item.greatest? d.depth (ds.map depth)).getD .null

/-- The depth of a clause that is inferred from its parents; nothing if theirs are no numbers. -/
def nextDepth (d : Derived) (ds : List Derived) : Item := ((d.deepest ds).next?).getD .null

/-- Whether the depth of an inferred clause could be told. -/
def hasDepth (d : Derived) : Bool :=
  match d.depth with
  | .null => false
  | _ => true

end Derived

end Elenchus

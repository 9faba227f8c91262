import Elenchus.Proof.Arena

/-!
Proof traces: a clause with everything it was derived from, in the order of the arena, so that
parents come before their children wherever the arena has them so.
-/

namespace Elenchus

namespace Proof

/-- One clause of a proof. `parents` are positions of steps of the same trace, and `label` is the
number of the clause as it was written where it was met first. -/
structure Step where
  index : Nat
  id : Nat
  label : Item
  derived : Derived
  parents : List Nat

namespace Step

def clause (s : Step) : Clause := s.derived.clause

def isPremise (s : Step) : Bool := s.parents.isEmpty

/-- Clauses that came without a derivation are input. -/
def rule (s : Step) : Item :=
  match s.derived.derivation with
  | some d => d.rule
  | none => .str "input"

def parentIds (s : Step) : List Item := Arena.parentsOf s.derived

def unifier (s : Step) : Option Bindings := s.derived.derivation.bind Derivation.unifier

def source (s : Step) : Item :=
  match s.derived.derivation with
  | some d => d.source
  | none => .null

/-- Where the clause comes from: the rule with its source, or with its parents and unifier. -/
def origin (s : Step) : String :=
  if s.isPremise then
    match s.source with
    | .null => s.rule.plain
    | name => s.rule.plain ++ " " ++ name.plain
  else
    let used := s.rule.plain ++ " " ++ ", ".intercalate (s.parents.map Nat.repr)
    match s.unifier with
    | some β => if β.isEmpty then used else used ++ " " ++ β.text
    | none => used

def line (s : Step) : String :=
  s.index.repr ++ ". " ++ s.clause.text ++ "    [" ++ s.origin ++ "]"

end Step

structure Trace where
  steps : List Step

namespace Trace

/-- The trace of a clause. -/
def ofArena (a : Arena) (id : Item) : Except NumberError Trace :=
  (a.ancestors id).map fun ms =>
    ⟨(ms.zipIdx.filterMap fun (m, index) =>
      (a.get? m.id).map fun d =>
        { index
          id := m.id
          label := m.label
          derived := d
          parents := (Arena.parentsOf d).filterMap fun p =>
            p.whole?.bind fun n => (ms.map Arena.Met.id).idxOf? n.toNat })⟩

/-- The clause that is proved. -/
def conclusion (t : Trace) : Option Clause := t.steps.getLast?.map Step.clause

/-- Number of inferences. -/
def length (t : Trace) : Nat := (t.steps.filter fun s => !s.isPremise).length

def premises (t : Trace) : List Step := t.steps.filter Step.isPremise

def lines (t : Trace) : List String := t.steps.map Step.line

/-- The proof in writing. -/
def text (t : Trace) : String := "\n".intercalate t.lines

/-- From parents to children, each pair once, in ascending order. -/
def edges (t : Trace) : List (Nat × Nat) :=
  ((t.steps.flatMap fun s => s.parents.map fun p => (p, s.index)).eraseDups).mergeSort
    fun a b => decide (a.1 < b.1 ∨ a.1 = b.1 ∧ a.2 ≤ b.2)

end Trace

end Proof

end Elenchus

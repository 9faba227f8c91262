import Elenchus.Proof.Derivation

/-!
The arena keeps every clause ever made under the number it got when it was added, so that proofs
can always be put together.
-/

namespace Elenchus

structure Arena where
  entries : Array Derived := #[]

/-- A clause with its number in an arena. -/
structure Filed where
  id : Nat
  derived : Derived

def Filed.clause (f : Filed) : Clause := f.derived.clause

/-- Why a value does not number a clause, or does not do as a depth. -/
inductive NumberError where
  | missing (id : Item)
  | notNumber

namespace Arena

def size (a : Arena) : Nat := a.entries.size

def get? (a : Arena) (id : Nat) : Option Derived := a.entries[id]?

def filed? (a : Arena) (id : Nat) : Option Filed := (a.get? id).map fun d => ⟨id, d⟩

/-- Whether an integer numbers a clause. -/
def contains (a : Arena) (id : Item) : Bool :=
  match id.int? with
  | some n => decide (0 ≤ n ∧ n < a.size)
  | none => false

/-- The clause with a number. Numbers within bounds that are no integers do not number anything. -/
def fetch (a : Arena) (id : Item) : Except NumberError Filed :=
  match id.number? with
  | none => .error .notNumber
  | some n =>
    if (Number.int 0).le n && n.lt (.int a.size) then
      match id.int?.bind fun n => a.filed? n.toNat with
      | some f => .ok f
      | none => .error .notNumber
    else .error (.missing id)

/-- Adds a clause at the end; its number is its position. -/
def add (a : Arena) (d : Derived) : Nat × Arena := (a.size, ⟨a.entries.push d⟩)

/-- The numbers of the parents, as recorded. -/
def parentsOf (d : Derived) : List Item :=
  match d.derivation with
  | some e => e.parents
  | none => []

/-- The number of a clause, and how it was written where it was met first. -/
structure Met where
  id : Nat
  label : Item

/-- Whether a number is among those met. -/
def isMet (seen : List Met) (id : Item) : Bool :=
  match id.whole? with
  | some n => decide (0 ≤ n) && seen.any fun m => m.id == n.toNat
  | none => false

/-- Collects the numbers on the stack and all their ancestors, the parents that are named last
first. -/
def collect (a : Arena) : (steps : Nat) → (stack : List Item) → (seen : List Met) →
    Except NumberError (List Met)
  | _, [], seen => .ok seen
  | 0, _ :: _, seen => .ok seen
  | steps + 1, id :: stack, seen =>
    if isMet seen id then a.collect steps stack seen
    else
      match a.fetch id with
      | .error e => .error e
      | .ok f => a.collect steps ((parentsOf f.derived).reverse ++ stack) (⟨f.id, id⟩ :: seen)

/-- Every number is put on the stack once for each time it is named as a parent. -/
def collectBound (a : Arena) : Nat :=
  a.entries.foldl (fun n d => n + (parentsOf d).length) 1

/-- A clause and everything it was derived from, in ascending order. -/
def ancestors (a : Arena) (id : Item) : Except NumberError (List Met) :=
  (a.collect a.collectBound [id] []).map fun ms => ms.mergeSort fun m n => decide (m.id ≤ n.id)

end Arena

end Elenchus

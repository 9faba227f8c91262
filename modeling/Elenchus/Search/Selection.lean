import Elenchus.Proof.Arena
import Elenchus.Text.Case

/-!
Which of the waiting clauses is taken next. Only the selectors named here are meant wherever a
search has one; selectors that callers make themselves are not considered.
-/

namespace Elenchus

/-- How to select. `ratio (some n)` takes the smallest clause `n` times and then the oldest once;
`ratio none` never comes to the oldest. -/
inductive Preference where
  | smallest
  | fifo
  | ratio (n : Option Nat)
  deriving DecidableEq

inductive SelectorError where
  | notName
  | unknown (name : String)
  | ratioNotNumber
  | ratioNotPositive (ratio : Item)
  | ratioNotTaken

/-- Nothing is said about values of the wrong kind, or about a ratio that is not asked for. -/
def SelectorError.message : SelectorError → Option String
  | .unknown name => some ("Unknown selector: " ++ name)
  | .ratioNotPositive ratio => some ("pick-given ratio must be positive, got " ++ ratio.plain)
  | .notName | .ratioNotNumber | .ratioNotTaken => none

/-- A preference, the selections since the last one by age, and the number of selections made. -/
structure Selector where
  preference : Preference
  turn : Nat := 0
  selections : Nat := 0

/-- Few literals first, then few symbols, then old clauses. -/
def Filed.priority (f : Filed) : Nat × Nat × Nat := (f.clause.length, f.clause.size, f.id)

def precedes (a b : Nat × Nat × Nat) : Bool :=
  decide (a.1 < b.1 ∨ a.1 = b.1 ∧ (a.2.1 < b.2.1 ∨ a.2.1 = b.2.1 ∧ a.2.2 < b.2.2))

/-- The position of the first clause that none precedes. -/
def smallestFrom (best : Nat × Filed) : List (Filed × Nat) → Nat
  | [] => best.1
  | (f, i) :: fs =>
    smallestFrom (if precedes f.priority best.2.priority then (i, f) else best) fs

def smallest? : List Filed → Option Nat
  | [] => none
  | f :: fs => some (smallestFrom (0, f) (fs.zipIdx 1))

def oldest? : List Filed → Option Nat
  | [] => none
  | _ :: _ => some 0

namespace Selector

/-- The names under which selectors are known. -/
def names : List String := ["smallest", "fifo", "ratio"]

def defaultRatio : Item := .int 4

/-- The selector that takes the oldest clause after as many others as the ratio says. -/
def ofRatio (ratio : Item) : Except SelectorError Selector :=
  match ratio.number? with
  | none => .error .ratioNotNumber
  | some n =>
    if n.lt (.int 1) then .error (.ratioNotPositive ratio)
    else .ok ⟨.ratio (n.floor?.map Int.toNat), 0, 0⟩

/-- The selector with a name, in capitals or not. Only `ratio` takes a number. -/
def ofName (name : Item) (ratio : Option Item) : Except SelectorError Selector :=
  match name with
  | .str name =>
    match Text.lower name, ratio with
    | "ratio", ratio => ofRatio (ratio.getD defaultRatio)
    | "smallest", none => .ok ⟨.smallest, 0, 0⟩
    | "fifo", none => .ok ⟨.fifo, 0, 0⟩
    | "smallest", some _ | "fifo", some _ => .error .ratioNotTaken
    | name, _ => .error (.unknown name)
  | _ => .error .notName

def name (s : Selector) : String :=
  match s.preference with
  | .smallest => "smallest"
  | .fifo => "fifo"
  | .ratio _ => "ratio"

/-- The position to take next. -/
def select (s : Selector) (waiting : List Filed) : Option Nat × Selector :=
  match s.preference with
  | .smallest => (smallest? waiting, s)
  | .fifo => (oldest? waiting, s)
  | .ratio n =>
    if waiting.isEmpty then (none, s)
    else if n.any fun n => decide (n < s.turn + 1) then (oldest? waiting, { s with turn := 0 })
    else (smallest? waiting, { s with turn := s.turn + 1 })

/-- The same, and counts it. -/
def run (s : Selector) (waiting : List Filed) : Option Nat × Selector :=
  match s.select waiting with
  | (some i, s) => (some i, { s with selections := s.selections + 1 })
  | (none, s) => (none, s)

end Selector

end Elenchus

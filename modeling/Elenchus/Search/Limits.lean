import Elenchus.Item.Basic

/-!
Bounds on a search. A bound that is not set does not apply. Callers may set bounds to values that
are no numbers, and it shows when something is compared with them.
-/

namespace Elenchus

inductive LimitKind where
  | maxGiven
  | maxClauses
  | maxSeconds
  | maxDepth
  | maxClauseSize
  | maxWeight
  deriving DecidableEq

namespace LimitKind

def all : List LimitKind :=
  [.maxGiven, .maxClauses, .maxSeconds, .maxDepth, .maxClauseSize, .maxWeight]

def name : LimitKind → String
  | .maxGiven => "max_given"
  | .maxClauses => "max_clauses"
  | .maxSeconds => "max_seconds"
  | .maxDepth => "max_depth"
  | .maxClauseSize => "max_clause_size"
  | .maxWeight => "max_weight"

def ofName? (name : String) : Option LimitKind := all.find? fun k => k.name == name

end LimitKind

structure Limits where
  maxGiven : Item := .int 1000
  maxClauses : Item := .int 10000
  maxSeconds : Item := .null
  maxDepth : Item := .null
  maxClauseSize : Item := .int 100
  maxWeight : Item := .null

/-- What a search finds around it: what the clock says, in seconds since it began, when so many
clauses have been given, and how many more rounds there is patience for if no bound on the number
of clauses ends it. -/
structure Surroundings where
  clock : Nat → Number := fun _ => .int 0
  patience : Nat := Nat.pow 2 40

namespace Limits

def set (l : Limits) (k : LimitKind) (value : Item) : Limits :=
  match k with
  | .maxGiven => { l with maxGiven := value }
  | .maxClauses => { l with maxClauses := value }
  | .maxSeconds => { l with maxSeconds := value }
  | .maxDepth => { l with maxDepth := value }
  | .maxClauseSize => { l with maxClauseSize := value }
  | .maxWeight => { l with maxWeight := value }

/-- Sets bounds by name; `none` if a name is not known. -/
def override? (l : Limits) : List (String × Item) → Option Limits
  | [] => some l
  | (name, value) :: rest =>
    match LimitKind.ofName? name with
    | some k => (l.set k value).override? rest
    | none => none

/-- Whether a bound and a number are so related; `none` if they cannot be compared. -/
def compared (related : Number → Number → Bool) (bound n : Item) : Option Bool :=
  match bound, bound.number?, n.number? with
  | .null, _, _ => some false
  | _, some b, some m => some (related b m)
  | _, _, _ => none

/-- Whether `n` is at the bound or beyond. -/
def reached (bound n : Item) : Option Bool := compared Number.le bound n

/-- Whether `n` is beyond the bound. -/
def exceeded (bound n : Item) : Option Bool := compared Number.lt bound n

/-- The first bound that holds. The error is a bound that comes before and cannot be compared. -/
def firstHolding : List (LimitKind × Option Bool) → Except LimitKind (Option LimitKind)
  | [] => .ok none
  | (k, some true) :: _ => .ok (some k)
  | (_, some false) :: rest => firstHolding rest
  | (k, none) :: _ => .error k

end Limits

end Elenchus

import Elenchus.Proof.Arena

/-!
The store of active clauses on top of an arena, with an index from literals to clauses. Clauses
that are taken out stay in the arena.
-/

namespace Elenchus

/-- For one key: clauses in the order in which they came in, each with the literal's positions. -/
abbrev Bucket := List (Nat × List Nat)

namespace Bucket

def add (id pos : Nat) : Bucket → Bucket
  | [] => [(id, [pos])]
  | (i, ps) :: b => if i = id then (i, ps ++ [pos]) :: b else (i, ps) :: add id pos b

/-- Takes a clause out, if it is there. -/
def forget (id : Nat) (b : Bucket) : Bucket := b.filter fun p => p.1 != id

/-- The positions that a bucket has, each with its clause. -/
def entries (b : Bucket) : List (Nat × Nat) := b.flatMap fun p => p.2.map fun pos => (p.1, pos)

end Bucket

abbrev LiteralIndex := List (LiteralKey × Bucket)

namespace LiteralIndex

def bucket (ix : LiteralIndex) (k : LiteralKey) : Bucket := (ix.lookup k).getD []

def add (k : LiteralKey) (id pos : Nat) : LiteralIndex → LiteralIndex
  | [] => [(k, [(id, [pos])])]
  | (l, b) :: ix => if l = k then (l, Bucket.add id pos b) :: ix else (l, b) :: add k id pos ix

def addAll (ix : LiteralIndex) (id : Nat) (ls : List Literal) : LiteralIndex :=
  ls.zipIdx.foldl (fun ix p => LiteralIndex.add p.1.key id p.2 ix) ix

/-- Takes a clause out of the bucket of one key. If that leaves the bucket empty, the key goes. -/
def forget (k : LiteralKey) (id : Nat) : LiteralIndex → LiteralIndex
  | [] => []
  | (l, b) :: ix =>
    if l = k then
      let b := Bucket.forget id b
      if b.isEmpty then ix else (l, b) :: ix
    else (l, b) :: forget k id ix

/-- Takes a clause out of the buckets of its literals, one literal after the other. -/
def forgetAll (ix : LiteralIndex) (id : Nat) (ls : List Literal) : LiteralIndex :=
  ls.foldl (fun ix l => LiteralIndex.forget l.key id ix) ix

end LiteralIndex

structure Store where
  arena : Arena := {}
  active : List Nat := []
  index : LiteralIndex := []

/-- A literal of an active clause. -/
structure Candidate where
  id : Nat
  position : Nat
  literal : Literal

/-- What is told when a clause that has a number is added once more. -/
def Filed.addedTwiceMessage (f : Filed) : String :=
  "Clause " ++ f.clause.text ++ " already has id " ++ f.id.repr

namespace Store

/-- The active clause that a value numbers. Values that cannot be keys are refused. -/
def activeId? (s : Store) (id : Item) : Except NumberError (Option Nat) :=
  if id.isKey then
    .ok (id.whole?.bind fun n =>
      if 0 ≤ n ∧ s.active.contains n.toNat then some n.toNat else none)
  else .error .notNumber

def isActive (s : Store) (id : Item) : Except NumberError Bool :=
  (s.activeId? id).map Option.isSome

/-- The active clause with a number. -/
def active? (s : Store) (id : Nat) : Option Filed :=
  if s.active.contains id then s.arena.filed? id else none

/-- The active clauses in the order in which they came in. -/
def clauses (s : Store) : List Filed := s.active.filterMap s.arena.filed?

/-- An active clause that subsumes `c`. -/
def findSubsumer (s : Store) (c : Clause) : Option Nat :=
  (s.clauses.find? fun d =>
    decide (d.clause.length ≤ c.length) && d.clause.keys.all c.keys.contains &&
      d.clause.subsumes c).map Filed.id

def isSubsumed (s : Store) (c : Clause) : Bool := (s.findSubsumer c).isSome

/-- The active clauses other than number `own` that `c` subsumes. -/
def backSubsumed (s : Store) (c : Clause) (own : Option Nat) : List Nat :=
  (s.clauses.filter fun d =>
    own != some d.id && decide (c.length ≤ d.clause.length) &&
      c.keys.all d.clause.keys.contains && c.subsumes d.clause).map Filed.id

/-- Whether an active clause has the same literals. -/
def holds (s : Store) (c : Clause) : Bool := s.clauses.any fun d => c.alike d.clause

def addToArena (s : Store) (d : Derived) : Nat × Store :=
  let (id, arena) := s.arena.add d
  (id, { s with arena })

/-- Makes a clause of the arena active. -/
def activate (s : Store) (f : Filed) : Store :=
  if s.active.contains f.id then s
  else
    { s with
      active := s.active ++ [f.id]
      index := s.index.addAll f.id f.clause.literals }

/-- Adds a new clause and makes it active, unless it has to be and is subsumed. -/
def insert (s : Store) (checkSubsumption : Bool) (d : Derived) : Option Nat × Store :=
  if checkSubsumption && s.isSubsumed d.clause then (none, s)
  else
    let (id, s) := s.addToArena d
    (some id, s.activate ⟨id, d⟩)

/-- The same for a clause that the arena has. -/
def reinsert (s : Store) (checkSubsumption : Bool) (f : Filed) : Option Nat × Store :=
  if checkSubsumption && s.isSubsumed f.clause then (none, s) else (some f.id, s.activate f)

/-- Takes an active clause out. -/
def remove (s : Store) (id : Nat) : Store :=
  { s with
    active := s.active.filter (· != id)
    index := (s.active? id).elim s.index fun f => s.index.forgetAll id f.clause.literals }

/-- The same for a clause that a value numbers; it has to be active. -/
def removeNumbered (s : Store) (id : Item) : Except NumberError Store := do
  match ← s.activeId? id with
  | some n => .ok (s.remove n)
  | none => .error (.missing id)

/-- Takes clauses out one after the other, up to the first that is not active. -/
def removeEach (s : Store) : List Item → Except NumberError Unit × Store
  | [] => (.ok (), s)
  | id :: ids =>
    match s.removeNumbered id with
    | .ok s => s.removeEach ids
    | .error e => (.error e, s)

def clear (s : Store) : Store := { s with active := [], index := [] }

/-- The literal of an active clause at a place that the index names. -/
def candidateAt (s : Store) (e : Nat × Nat) : Option Candidate :=
  (s.active? e.1).bind fun f => f.clause.literals[e.2]?.map fun m => ⟨e.1, e.2, m⟩

/-- Active literals with the same predicate and the opposite sign. The look-up fails if the index
names a clause that is not active. -/
def candidates? (s : Store) (l : Literal) : Option (List Candidate) :=
  (s.index.bucket l.oppositeKey).entries.mapM s.candidateAt

/-- The same for the rules, which look up in stores where no look-up fails. -/
def candidates (s : Store) (l : Literal) : List Candidate := (s.candidates? l).getD []

end Store

end Elenchus

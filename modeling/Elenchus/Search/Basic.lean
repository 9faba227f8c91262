import Elenchus.Inference.Rule
import Elenchus.Proof.Trace
import Elenchus.Search.Limits
import Elenchus.Search.Selection

/-!
The given-clause search. A waiting clause that is selected becomes usable unless it is a tautology
or subsumed, and what the rules infer from it and the usable clauses comes to wait in turn.
-/

namespace Elenchus

/-- What is told of usable clauses that belong to another arena than the waiting ones. -/
def foreignArenaMessage : String := "Usable clauses must live in the state\x27s arena"

inductive Status where
  | ready
  | searching
  | refuted
  | saturated
  | exhausted
  deriving DecidableEq

namespace Status

def name : Status → String
  | .ready => "ready"
  | .searching => "searching"
  | .refuted => "refuted"
  | .saturated => "saturated"
  | .exhausted => "exhausted"

def isFinal : Status → Bool
  | .ready | .searching => false
  | .refuted | .saturated | .exhausted => true

end Status

structure Statistics where
  given : Nat := 0
  generated : Nat := 0
  kept : Nat := 0
  forwardSubsumed : Nat := 0
  backSubsumed : Nat := 0
  tautologies : Nat := 0
  factors : Nat := 0
  hyperresolvents : Nat := 0
  unitDeletions : Nat := 0
  discarded : Nat := 0
  deriving DecidableEq

/-- The counts by name. -/
def Statistics.entries (s : Statistics) : List (String × Nat) :=
  [("given", s.given), ("generated", s.generated), ("kept", s.kept),
    ("forward_subsumed", s.forwardSubsumed), ("back_subsumed", s.backSubsumed),
    ("tautologies", s.tautologies), ("factors", s.factors),
    ("hyperresolvents", s.hyperresolvents), ("unit_deletions", s.unitDeletions),
    ("discarded", s.discarded)]

/-- Which rules a search uses. -/
structure Strategy where
  factoring : Bool := true
  backwardSubsumption : Bool := true
  occursCheck : Bool := true
  hyperresolution : Bool := false
  unitDeletion : Bool := false
  deriving DecidableEq

/-- How a search goes about its work. The ratio counts only for the selector of that name. -/
structure SearchOptions where
  selector : Item := .str "smallest"
  ratio : Item := Selector.defaultRatio
  strategy : Strategy := {}

/-- What a round of a search can come to grief on. -/
inductive SearchFault where
  /-- A bound is no number. -/
  | incomparable (k : LimitKind)
  /-- What was given as the selector is not the name of one. -/
  | noSelector
  /-- The depth of a new clause cannot be told. -/
  | noDepth

/-- The usable clauses, with the arena, and the clauses that wait, in the order of their numbers. -/
structure Agenda where
  usable : Store := {}
  waiting : List Filed := []

namespace Agenda

/-- Files a new clause to wait. -/
def push (a : Agenda) (d : Derived) : Nat × Agenda :=
  let (id, usable) := a.usable.addToArena d
  (id, { usable, waiting := a.waiting ++ [⟨id, d⟩] })

/-- Takes the clause at a position out of the queue. -/
def take? (a : Agenda) (i : Nat) : Option (Filed × Agenda) :=
  a.waiting[i]?.map fun f => (f, { a with waiting := a.waiting.eraseIdx i })

def moveToUsable (a : Agenda) (f : Filed) : Agenda := { a with usable := a.usable.activate f }

/-- Selects a clause and makes it usable; gives its position in the queue too. -/
def pick (a : Agenda) (selector : Selector) : Option (Nat × Filed) × Agenda × Selector :=
  let (i, selector) := selector.run a.waiting
  match i.bind fun i => (a.take? i).map fun p => (i, p) with
  | some (i, f, a) => (some (i, f), a.moveToUsable f, selector)
  | none => (none, a, selector)

/-- The numbers of the usable clauses, then of those that wait. -/
def allIds (a : Agenda) : List Nat := a.usable.active ++ a.waiting.map Filed.id

end Agenda

/-- The empty clause, or a clause of one answer literal, ends a search with a refutation. When
nothing waits any more the clauses are saturated, unless a bound has dropped some on the way. -/
structure Search where
  limits : Limits := {}
  strategy : Strategy := {}
  around : Surroundings := {}
  selector : Option Selector := some ⟨.smallest, 0, 0⟩
  agenda : Agenda := {}
  /-- The clauses that wait, up to the order of their literals. -/
  queued : List Clause := []
  renamer : Renamer := {}
  statistics : Statistics := {}
  status : Status := .ready
  proofId : Option Nat := none
  stoppedBy : Option LimitKind := none
  /-- The first bound that has dropped a clause. -/
  droppedBy : Option LimitKind := none
  /-- What the last round has come to grief on. -/
  fault : Option SearchFault := none

/-- What a search has come to. -/
structure Outcome where
  status : Status
  proofId : Option Nat
  stoppedBy : Option LimitKind
  statistics : Statistics
  arena : Arena

namespace Search

/-- The selector that the options name. Only a text is looked up as a name. -/
def selectorOf (o : SearchOptions) : Except SelectorError (Option Selector) :=
  match o.selector with
  | .str name =>
    let ratio := if Text.lower name = "ratio" then some o.ratio else none
    (Selector.ofName (.str name) ratio).map some
  | _ => .ok none

/-- A search that has no clauses yet. -/
def create (limits : Limits) (o : SearchOptions) (around : Surroundings) :
    Except SelectorError Search :=
  (selectorOf o).map fun selector => { limits, selector, around, strategy := o.strategy }

/-- The empty clause, or a clause of one answer literal. -/
def isRefutation (c : Clause) : Bool := c.isEmpty || c.isAnswer && c.length == 1

def isQueued (s : Search) (c : Clause) : Bool := s.queued.any c.alike

/-- Files a clause to wait. -/
def enqueue (s : Search) (d : Derived) : Search :=
  { s with agenda := (s.agenda.push d).2, queued := s.queued ++ [d.clause] }

/-- Files a clause without any further use for it, and gives its number. -/
def file (s : Search) (d : Derived) : Nat × Search :=
  let (id, usable) := s.agenda.usable.addToArena d
  (id, { s with agenda := { s.agenda with usable } })

/-- Files a clause that refutes the input. -/
def refute (s : Search) (d : Derived) : Search :=
  let (id, s) := s.file d
  { s with status := .refuted, proofId := some id }

/-- Files input clauses. One that is like a clause already waiting is filed but does not wait. -/
def seedAll (s : Search) : List Derived → Search
  | [] => s
  | d :: ds =>
    if isRefutation d.clause then s.refute d
    else if s.isQueued d.clause then (s.file d).2.seedAll ds
    else (s.enqueue d).seedAll ds

/-- What is told when clauses are added to a search that has begun. -/
def seedMessage (status : Status) : String := "Cannot seed a search in state " ++ status.name

/-- Adds input clauses; the error is the status of a search that has begun. -/
def seed (s : Search) (ds : List Derived) : Except Status Search :=
  if s.status = .ready then .ok (s.seedAll ds) else .error s.status

def exhaust (s : Search) (k : LimitKind) : Search :=
  { s with status := .exhausted, stoppedBy := some k }

/-- The first bound on the whole search that is reached. -/
def limitReached (s : Search) : Except LimitKind (Option LimitKind) :=
  Limits.firstHolding
    [(.maxGiven, Limits.reached s.limits.maxGiven (.int s.statistics.given)),
      (.maxClauses, Limits.reached s.limits.maxClauses (.int s.statistics.kept)),
      (.maxSeconds,
        Limits.reached s.limits.maxSeconds (.ofNumber (s.around.clock s.statistics.given)))]

/-- The first bound on single clauses that a new clause goes beyond. -/
def limitExceeded (l : Limits) (d : Derived) : Except LimitKind (Option LimitKind) :=
  Limits.firstHolding
    [(.maxDepth, Limits.exceeded l.maxDepth d.depth),
      (.maxClauseSize, Limits.exceeded l.maxClauseSize (.int d.clause.length)),
      (.maxWeight, Limits.exceeded l.maxWeight (.int d.clause.size))]

def fail (s : Search) (fault : SearchFault) : Search := { s with fault := some fault }

/-- Leaves a clause out because of a bound. -/
def drop (s : Search) (k : LimitKind) : Search :=
  { s with
    statistics := { s.statistics with discarded := s.statistics.discarded + 1 }
    droppedBy := s.droppedBy <|> some k }

/-- Shortens a new clause if the strategy says so. -/
def shorten (s : Search) (d : Derived) : Derived × Search :=
  if s.strategy.unitDeletion then
    match Inference.simplify s.agenda.usable d none s.renamer with
    | (some short, usable, renamer) =>
      let s := { s with agenda := { s.agenda with usable }, renamer }
      if short.result.hasDepth then
        (short.result,
          { s with
            statistics :=
              { s.statistics with unitDeletions := s.statistics.unitDeletions + short.removed } })
      else (d, s.fail .noDepth)
    | (none, usable, renamer) => (d, { s with agenda := { s.agenda with usable }, renamer })
  else (d, s)

/-- Files a new clause, or finds a reason not to. -/
def keepShortened (s : Search) (d : Derived) : Search :=
  if isRefutation d.clause then s.refute d
  else if d.clause.isTautology then
    { s with statistics := { s.statistics with tautologies := s.statistics.tautologies + 1 } }
  else
    match limitExceeded s.limits d with
    | .error k => s.fail (.incomparable k)
    | .ok (some k) => s.drop k
    | .ok none =>
      if s.isQueued d.clause || s.agenda.usable.isSubsumed d.clause then
        { s with
          statistics :=
            { s.statistics with forwardSubsumed := s.statistics.forwardSubsumed + 1 } }
      else
        let s := s.enqueue d
        { s with statistics := { s.statistics with kept := s.statistics.kept + 1 } }

def keep (s : Search) (d : Derived) : Search :=
  let s := { s with statistics := { s.statistics with generated := s.statistics.generated + 1 } }
  let (d, s) := s.shorten d
  if s.fault.isSome then s else s.keepShortened d

/-- Files new clauses in order up to a refutation or a fault. -/
def keepAll (s : Search) : List Derived → Search
  | [] => s
  | d :: ds =>
    let s := s.keep d
    if s.status = .refuted || s.fault.isSome then s else s.keepAll ds

/-- Takes out the usable clauses that the given one subsumes. -/
def subsumeBackward (s : Search) (given : Filed) : Search :=
  if s.strategy.backwardSubsumption then
    let ids := s.agenda.usable.backSubsumed given.clause (some given.id)
    { s with
      agenda := { s.agenda with usable := ids.foldl Store.remove s.agenda.usable }
      statistics := { s.statistics with backSubsumed := s.statistics.backSubsumed + ids.length } }
  else s

def factorsOf (s : Search) (given : Filed) : List Derived :=
  if s.strategy.factoring then Inference.factors s.strategy.occursCheck given else []

/-- Everything the rules infer from the given clause: factors, resolvents, hyperresolvents. -/
def infer (s : Search) (given : Filed) : List Derived × Search :=
  let check := s.strategy.occursCheck
  let fs := s.factorsOf given
  let (rs, renamer) := Inference.resolvents check s.agenda.usable given s.renamer
  let (hs, renamer) :=
    if s.strategy.hyperresolution then
      Inference.hyperresolvents check s.agenda.usable given renamer
    else ([], renamer)
  (fs ++ rs ++ hs,
    { s with
      renamer
      statistics :=
        { s.statistics with
          factors := s.statistics.factors + fs.length
          hyperresolvents := s.statistics.hyperresolvents + hs.length } })

/-- What is left if the depth of an inferred clause cannot be told. The rules before the one that
fails have counted their clauses, and names are used up to the one at which it fails. -/
def failToInfer (s : Search) (given : Filed) : Search :=
  let check := s.strategy.occursCheck
  let fs := s.factorsOf given
  if fs.any Halt.noDepth then s.fail .noDepth
  else
    let (rs, renamer) :=
      Inference.resolventsUpTo .noDepth check s.agenda.usable given s.renamer
    let s :=
      { s with
        renamer
        statistics := { s.statistics with factors := s.statistics.factors + fs.length } }
    if rs.any Halt.noDepth then s.fail .noDepth
    else
      let (_, renamer) :=
        Inference.hyperresolventsUpTo .noDepth check s.agenda.usable given renamer
      { s with renamer }.fail .noDepth

/-- Works on a clause that has been selected. -/
def process (s : Search) (given : Filed) : Search :=
  if given.clause.isTautology then
    { s with statistics := { s.statistics with tautologies := s.statistics.tautologies + 1 } }
  else if s.agenda.usable.isSubsumed given.clause then
    { s with
      statistics := { s.statistics with forwardSubsumed := s.statistics.forwardSubsumed + 1 } }
  else
    let s := s.subsumeBackward given
    let s := { s with agenda := s.agenda.moveToUsable given }
    let (ds, next) := s.infer given
    if ds.all Derived.hasDepth then next.keepAll ds else s.failToInfer given

/-- Takes a clause out of the queue. -/
def takeGiven (s : Search) (given : Filed) (agenda : Agenda) : Search :=
  { s with
    agenda
    queued := s.queued.filter fun c => !given.clause.alike c
    statistics := { s.statistics with given := s.statistics.given + 1 } }

/-- One round of a search that is not at its end. -/
def advance (s : Search) : Search :=
  match s.limitReached, s.selector with
  | .error k, _ => s.fail (.incomparable k)
  | .ok (some k), _ => s.exhaust k
  | .ok none, none => s.fail .noSelector
  | .ok none, some selector =>
    let (i, selector) := selector.run s.agenda.waiting
    let s := { s with selector := some selector }
    match i.bind s.agenda.take? with
    | some (given, agenda) => (s.takeGiven given agenda).process given
    | none =>
      match s.droppedBy with
      | some k => s.exhaust k
      | none => { s with status := .saturated }

/-- A search that is ready begins. -/
def start (s : Search) : Search :=
  if s.status = .ready then { s with status := .searching } else s

/-- One round; nothing changes once the search is at its end. -/
def step (s : Search) : Search :=
  let s := { s.start with fault := none }
  if s.status = .searching then s.advance else s

/-- The whole number that a bound amounts to. -/
def wholeBound? (bound : Item) : Option Int := bound.number?.bind Number.ceil?

/-- How many rounds a search can still take. With a bound on given clauses, every round but the
last counts one of them. With a bound on kept clauses, every round but the last takes a clause from
the queue, and only as many can come to it as may still be kept. Else it is a question of
patience. -/
def roundBound (s : Search) : Nat :=
  match wholeBound? s.limits.maxGiven, wholeBound? s.limits.maxClauses with
  | some n, _ => (n - s.statistics.given).toNat + 1
  | none, some n => s.agenda.waiting.length + (n - s.statistics.kept).toNat + 1
  | none, none => s.around.patience + 1

/-- At most `rounds` rounds, up to the end of the search or a fault. -/
def stepWithin : (rounds : Nat) → Search → Search
  | 0, s => s
  | rounds + 1, s =>
    if s.status = .searching && s.fault.isNone then s.step.stepWithin rounds else s

/-- Runs a search to its end, or up to a fault. -/
def run (s : Search) : Search :=
  let s := { s.start with fault := none }
  s.stepWithin s.roundBound

def outcome (s : Search) : Outcome :=
  ⟨s.status, s.proofId, s.stoppedBy, s.statistics, s.agenda.usable.arena⟩

end Search

/-- Why there is no proof to show. -/
inductive ProofError where
  | notRefuted (status : Status)
  | notCurrent
  | unnumbered (e : NumberError)

def ProofError.message : ProofError → Option String
  | .notRefuted status => some ("Search ended with status " ++ status.name)
  | .notCurrent => some "No successful entailment on the current knowledge base"
  | .unnumbered _ => none

namespace Outcome

/-- The clause that refutes the input. -/
def proofClause (o : Outcome) : Except ProofError Filed :=
  match o.status, o.proofId.bind o.arena.filed? with
  | .refuted, some f => .ok f
  | status, _ => .error (.notRefuted status)

/-- The proof that a search has found. -/
def proofTrace (o : Outcome) : Except ProofError Proof.Trace :=
  match o.status, o.proofId with
  | .refuted, some id => (Proof.Trace.ofArena o.arena (.int id)).mapError .unnumbered
  | status, _ => .error (.notRefuted status)

end Outcome

end Elenchus

import Elenchus.Inference.Basic
import Elenchus.Proof.Trace

/-!
Checking a proof. Every inference is made again from the clauses of its parents, with the unifier,
renamings and positions that its derivation records, and has to give the recorded clause.
-/

namespace Elenchus.Proof

/-- Why a step does not check out. -/
inductive ReplayFault where
  | needsTwoParents
  | sameSign
  | notUnified (β : Bindings) (l m : Literal)
  | needsOneParent
  | notMerged (β : Bindings) (l m : Literal)
  | needsUnits (rule : Item)
  | notUnit (c : Clause)
  | notResolved (β : Bindings) (l m : Literal)
  | unknownRule (rule : Item)
  | differs (expected recorded : Clause)
  | construct (e : ConstructError)
  | positionCount
  | noSuchPosition
  | notPosition
  | noDerivation

/-- The last four are about records that cannot be read, and nothing is said about them. -/
def ReplayFault.message : ReplayFault → Option String
  | .needsTwoParents => some "resolution needs two parents"
  | .sameSign => some "resolved literals have the same polarity"
  | .notUnified β l m => some (β.text ++ " does not unify " ++ l.text ++ " and " ++ m.text)
  | .needsOneParent => some "factoring needs one parent"
  | .notMerged β l m => some (β.text ++ " does not merge " ++ l.text ++ " and " ++ m.text)
  | .needsUnits rule => some (rule.plain ++ " needs one unit per removed literal")
  | .notUnit c => some (c.text ++ " is not a unit clause")
  | .notResolved β l m => some (β.text ++ " does not resolve " ++ l.text ++ " with " ++ m.text)
  | .unknownRule rule => some ("unknown rule " ++ rule.plain)
  | .differs e c => some ("re-derived " ++ e.text ++ ", recorded " ++ c.text)
  | .construct e => some e.message
  | .positionCount | .noSuchPosition | .notPosition | .noDerivation => none

structure ReplayError where
  index : Nat
  fault : ReplayFault

def ReplayError.message (e : ReplayError) : Option String :=
  match e.fault with
  | .construct e => some e.message
  | fault => fault.message.map fun m => "Proof step " ++ e.index.repr ++ " does not replay: " ++ m

/-- Passes on what could be built. -/
def rebuilt {α : Type} (r : Except ConstructError α) : Except ReplayFault α :=
  r.mapError .construct

/-- The literals under some bindings. -/
def applied (β : Bindings) (ls : List Literal) : Except ReplayFault (List Literal) :=
  rebuilt (ls.mapM β.applyLiteral)

/-- Whether two literals have the same atom under some bindings. -/
def agree (β : Bindings) (l m : Literal) : Except ReplayFault Bool := do
  let a ← rebuilt (β.applyAtom l.atom)
  let b ← rebuilt (β.applyAtom m.atom)
  return a == b

/-- The two positions of a resolution or factoring. -/
def twoPositions : List Item → Except ReplayFault (Item × Item)
  | [i, j] => .ok (i, j)
  | _ => .error .positionCount

def literalAt (ls : List Literal) (i : Item) : Except ReplayFault Literal :=
  match i.int?.map (at? ls) with
  | some (some l) => .ok l
  | some none => .error .noSuchPosition
  | none => .error .notPosition

/-- The literals whose positions are not listed. -/
def leaveOut (positions : List Item) (ls : List Literal) : List Literal :=
  dropAt (positions.filterMap Item.whole?) ls

def redoResolution (parents : List Clause) (d : Derivation) (β : Bindings) :
    Except ReplayFault Clause :=
  match parents with
  | [given, partner] => do
    let (i, j) ← twoPositions d.indices
    let renamed ← applied (d.partnerRenaming.getD .empty) partner.literals
    let l ← literalAt given.literals i
    let m ← literalAt renamed j
    if l.positive = m.positive then .error .sameSign
    if !(← agree β l m) then .error (.notUnified β l m)
    let rest := leaveOut [i] given.literals ++ leaveOut [j] renamed
    return .ofList (← applied β rest)
  | _ => .error .needsTwoParents

def redoFactoring (parents : List Clause) (d : Derivation) (β : Bindings) :
    Except ReplayFault Clause :=
  match parents with
  | [parent] => do
    let (i, j) ← twoPositions d.indices
    let l ← literalAt parent.literals i
    let m ← literalAt parent.literals j
    if l.positive ≠ m.positive then .error (.notMerged β l m)
    if !(← agree β l m) then .error (.notMerged β l m)
    return .ofList (← applied β (leaveOut [j] parent.literals))
  | _ => .error .needsOneParent

/-- Checks that each listed position is refuted by its unit. -/
def checkUnits (c : Clause) (β : Bindings) :
    List Item → List Clause → List Bindings → Except ReplayFault Unit
  | i :: is, u :: us, ρ :: ρs =>
    match u.literals with
    | [k] => do
      let l ← literalAt c.literals i
      let m ← rebuilt (ρ.applyLiteral k)
      if l.positive = m.positive then .error (.notResolved β l m)
      if !(← agree β l m) then .error (.notResolved β l m)
      checkUnits c β is us ρs
    | _ => .error (.notUnit u)
  | _, _, _ => .ok ()

def redoUnitResolution (parents : List Clause) (d : Derivation) (β : Bindings) :
    Except ReplayFault Clause :=
  match parents with
  | [] => .error (.needsUnits d.rule)
  | c :: units =>
    if units.isEmpty ∨ units.length ≠ d.indices.length ∨ units.length ≠ d.renamings.length then
      .error (.needsUnits d.rule)
    else do
      checkUnits c β d.indices units d.renamings
      return .ofList (← applied β (leaveOut d.indices c.literals))

/-- The clause that a derivation gives on the clauses of the parents. -/
def redo (parents : List Clause) (d : Derivation) : Except ReplayFault Clause :=
  let β := d.unifier.getD .empty
  if d.isBy resolutionRule then redoResolution parents d β
  else if d.isBy factoringRule then redoFactoring parents d β
  else if d.isBy hyperresolutionRule || d.isBy unitDeletionRule then
    redoUnitResolution parents d β
  else .error (.unknownRule d.rule)

def replayStep (steps : List Step) (s : Step) : Except ReplayFault Unit :=
  if s.isPremise then .ok ()
  else
    match s.derived.derivation, s.parents.mapM fun p => steps[p]?.map Step.clause with
    | none, _ => .error .noDerivation
    | some _, none => .error .noSuchPosition
    | some d, some parents => do
      let c ← redo parents d
      if c.alike s.clause then .ok () else .error (.differs c s.clause)

def replayFrom (steps : List Step) : List Step → Except ReplayError Unit
  | [] => .ok ()
  | s :: rest =>
    match replayStep steps s with
    | .error fault => .error ⟨s.index, fault⟩
    | .ok () => replayFrom steps rest

/-- Checks every inference of a trace and stops at the first that fails. -/
def Trace.replay (t : Trace) : Except ReplayError Unit := replayFrom t.steps t.steps

end Elenchus.Proof

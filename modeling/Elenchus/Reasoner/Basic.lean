import Elenchus.Knowledge.Basic
import Elenchus.Search.Basic

/-!
Questions to a knowledge base: a formula follows if its negation can be refuted, and an answer
literal collects the values of variables.
-/

namespace Elenchus

def querySource : String := "query"

inductive ReasonerError where
  | refused (e : NormalFormError)
  | unknownLimit
  | selector (e : SelectorError)
  | fault (e : SearchFault)
  /-- A search without bounds has not come to an end while there was patience for it. -/
  | unfinished
  | exhausted (limit : Option LimitKind) (statistics : Statistics)
  | noProof (e : ProofError)

/-- What is told of a search that a bound has stopped. -/
def exhaustedMessage (limit : Option LimitKind) : String :=
  "Search stopped by resource limit " ++ (limit.map LimitKind.name).getD "None"

/-- `proof` is the last successful search, with the version of the knowledge base it belongs to. -/
structure Reasoner where
  limits : Limits := {}
  options : SearchOptions := {}
  kb : KnowledgeBase := {}
  last : Option Outcome := none
  proof : Option (Nat × Outcome) := none

/-- A question: a formula, how the numbers of arguments in it were written, bounds for its search
alone, and what that search finds around it. -/
structure Question where
  formula : Formula
  arities : List Item := []
  overrides : List (String × Item) := []
  around : Surroundings := {}

/-- Names that are taken already where bounds are set for a question. -/
def Question.takenNames : List String := ["self", "query"]

/-- Whether bounds have names that are not taken. -/
def Question.areFree (overrides : List (String × Item)) : Bool :=
  !overrides.any fun m => takenNames.contains m.1

namespace Reasoner

def reset (r : Reasoner) : Reasoner := { r with kb := r.kb.reset, last := none, proof := none }

/-- The clauses of a negated question. The question itself is checked against the symbol table,
which stays as it is. -/
def queryClauses (r : Reasoner) (q : Question) (negated : Formula) :
    Except NormalFormError (List Derived) :=
  match r.kb.signature.check false q.arities q.formula with
  | (_, some e) => .error (.malformed e)
  | (sig, none) =>
    let goal := Item.str negatedGoalRule
    (sig.normalize { source := .str querySource, role := goal, rule := goal, check := false }
      negated).1

/-- Searches for a refutation of the knowledge base with further clauses. A search that comes to
grief, or to no end, leaves nothing behind. -/
def search (r : Reasoner) (q : Question) (ds : List Derived) :
    Except ReasonerError (Outcome × Reasoner) :=
  match r.limits.override? q.overrides with
  | none => .error .unknownLimit
  | some limits =>
    match Search.create limits r.options q.around with
    | .error e => .error (.selector e)
    | .ok s =>
      let s := (s.seedAll (r.kb.clauses.map Filed.derived ++ ds)).run
      match s.fault with
      | some e => .error (.fault e)
      | none =>
        if s.status.isFinal then .ok (s.outcome, { r with last := some s.outcome })
        else .error .unfinished

/-- Searches for a proof. Free variables of the question are read universally. -/
def prove (r : Reasoner) (q : Question) : Except ReasonerError (Outcome × Reasoner) :=
  match q.formula.freeVarsFault with
  | some fault => .error (.refused (.misshape fault))
  | none =>
    match r.queryClauses q (.not q.formula.closure) with
    | .error e => .error (.refused e)
    | .ok ds => r.search q ds

/-- Draws the conclusion from a search. A search that a bound has stopped decides nothing. -/
def conclude (r : Reasoner) (o : Outcome) : Except ReasonerError Bool × Reasoner :=
  match o.status with
  | .exhausted => (.error (.exhausted o.stoppedBy o.statistics), { r with proof := none })
  | .refuted => (.ok true, { r with proof := some (r.kb.version, o) })
  | _ => (.ok false, { r with proof := none })

/-- Whether the question follows. -/
def entails (r : Reasoner) (q : Question) : Except ReasonerError Bool × Reasoner :=
  match r.prove q with
  | .error e => (.error e, r)
  | .ok (o, r) => r.conclude o

/-- The variables of leading existential quantifiers. -/
def leadingVars : Formula → List String
  | .ex (.var x) f => x :: leadingVars f
  | .ex _ f => leadingVars f
  | _ => []

/-- The first leading existential quantifier that stands with no term; no value can be asked for
there. -/
def leadingFault : Formula → Option Item
  | .ex b f =>
    match b.item with
    | .term _ => leadingFault f
    | i => some i
  | _ => none

def belowExistentials : Formula → Formula
  | .ex _ f => belowExistentials f
  | f => f

/-- The variables a question asks for: the free ones, then those of leading existential
quantifiers. -/
def answerVars (query : Formula) : List String :=
  (query.freeVarsInOrder ++ leadingVars query).eraseDups

def answerAtom (vars : List String) : Formula :=
  .atomic ⟨Literal.answerMark, vars.map .var⟩

/-- Values read off the clause that refutes the input. The empty clause means that the knowledge
base contradicts itself, and then each variable stands for itself. -/
def bindingsOf (vars : List String) (c : Clause) : List (String × Term) :=
  match c.literals with
  | [] => vars.map fun x => (x, .var x)
  | l :: _ => vars.zip l.atom.args

/-- Finds values for the variables a question asks for. -/
def solve (r : Reasoner) (q : Question) :
    Except ReasonerError (Option (List (String × Term))) × Reasoner :=
  match q.formula.freeVarsFault, leadingFault q.formula, answerVars q.formula with
  | some fault, _, _ => (.error (.refused (.misshape fault)), r)
  | none, some i, _ => (.error (.refused (.misshape (.notTerm i))), r)
  | none, none, [] =>
    match r.entails q with
    | (.ok true, r) => (.ok (some []), r)
    | (.ok false, r) => (.ok none, r)
    | (.error e, r) => (.error e, r)
  | none, none, vars =>
    match r.queryClauses q (.or (.not (belowExistentials q.formula)) (answerAtom vars)) with
    | .error e => (.error (.refused e), r)
    | .ok ds =>
      match r.search q ds with
      | .error e => (.error e, r)
      | .ok (o, r) =>
        match r.conclude o with
        | (.error e, r) => (.error e, r)
        | (.ok false, r) => (.ok none, r)
        | (.ok true, r) =>
          match o.proofClause with
          | .ok f => (.ok (some (bindingsOf vars f.clause)), r)
          | .error e => (.error (.noProof e), r)

/-- The proof of the last question that was answered with yes, if the knowledge base has not
changed since. -/
def currentProof (r : Reasoner) : Except ProofError Proof.Trace :=
  match r.proof with
  | some (version, o) => if version = r.kb.version then o.proofTrace else .error .notCurrent
  | none => .error .notCurrent

end Reasoner

end Elenchus

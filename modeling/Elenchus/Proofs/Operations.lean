import Elenchus.Exchange.Reading
import Elenchus.Proofs.Questions

/-! Sessions with a reasoner: no answer depends on the questions and the failed calls before it. -/

namespace Elenchus

/-! ### Calls -/

/-- A formula as a caller states it: as it is, or as a text in the notation. -/
inductive Statement where
  | formula (f : Exchange.Written Formula)
  | text (t : String)

def Statement.read : Statement → Except Notation.ParseError (Exchange.Written Formula)
  | .formula f => .ok f
  | .text t => (Notation.parse t).map Exchange.ofNotation

/-- What is asked, with bounds for this search alone and what it finds around it. -/
structure Request where
  statement : Statement
  overrides : List (String × Item) := []
  around : Surroundings := {}

inductive Operation where
  | add (name role : Item) (f : Statement)
  | addAxiom (name : Item) (f : Statement)
  | addFact (name : Item) (f : Statement)
  | addRule (name : Item) (f : Statement)
  | entails (q : Request)
  | prove (q : Request)
  | solve (q : Request)
  | getProof
  | reset

/-- Additions and resets. -/
def Operation.mayChange : Operation → Bool
  | .add .. | .addAxiom .. | .addFact .. | .addRule .. | .reset => true
  | .entails _ | .prove _ | .solve _ | .getProof => false

inductive OperationError where
  | unreadable (e : Notation.ParseError)
  /-- A bound has a name that is taken already. -/
  | takenName
  | failed (e : ReasonerError)

inductive Reply where
  | added (e : KnowledgeEntry)
  | verdict (b : Bool)
  | outcome (o : Outcome)
  | answer (bs : Option (List (String × Term)))
  | proof (t : Proof.Trace)
  | done

def Request.read (q : Request) : Except OperationError Question :=
  if Question.areFree q.overrides then
    match q.statement.read with
    | .error e => .error (.unreadable e)
    | .ok f => .ok ⟨f.value, f.arities, q.overrides, q.around⟩
  else .error .takenName

namespace Reasoner

/-- Adds a formula in one of the ways that knowledge bases have. -/
def insert (r : Reasoner) (f : Statement)
    (add : List Item → Formula → Except NormalFormError KnowledgeEntry × KnowledgeBase) :
    Except OperationError Reply × Reasoner :=
  match f.read with
  | .error e => (.error (.unreadable e), r)
  | .ok f =>
    match add f.arities f.value with
    | (.error e, kb) => (.error (.failed (.refused e)), { r with kb })
    | (.ok e, kb) => (.ok (.added e), { r with kb })

/-- Answers a question that can be read. -/
def ask (r : Reasoner) (q : Request)
    (answer : Question → Except ReasonerError Reply × Reasoner) :
    Except OperationError Reply × Reasoner :=
  match q.read with
  | .error e => (.error e, r)
  | .ok q => ((answer q).1.mapError .failed, (answer q).2)

/-- A search that does not come to an end leaves nothing behind. -/
def after (r : Reasoner) : Except ReasonerError (Outcome × Reasoner) → Reasoner
  | .error _ => r
  | .ok p => p.2

/-- The reply to a call, and the reasoner after it. -/
def perform (r : Reasoner) : Operation → Except OperationError Reply × Reasoner
  | .add name role f => r.insert f (r.kb.add name role)
  | .addAxiom name f => r.insert f (r.kb.add name (.str assumptionRule))
  | .addFact name f => r.insert f (r.kb.addFact name)
  | .addRule name f => r.insert f (r.kb.addRule name)
  | .entails q => r.ask q fun q => ((r.entails q).1.map .verdict, (r.entails q).2)
  | .prove q => r.ask q fun q => (((r.prove q).map Prod.fst).map .outcome, r.after (r.prove q))
  | .solve q => r.ask q fun q => ((r.solve q).1.map .answer, (r.solve q).2)
  | .getProof => ((r.currentProof.map .proof).mapError fun e => .failed (.noProof e), r)
  | .reset => (.ok .done, r.reset)

/-- The reasoner after a session. -/
def run (r : Reasoner) : List Operation → Reasoner
  | [] => r
  | op :: ops => (r.perform op).2.run ops

/-- The call changes the knowledge base: it is a reset or an addition that is accepted. -/
def changes (r : Reasoner) (op : Operation) : Bool := op.mayChange && (r.perform op).1.isOk

/-- The accepted additions and the resets of a session. -/
def effective (r : Reasoner) : List Operation → List Operation
  | [] => []
  | op :: ops =>
    if r.changes op then op :: (r.perform op).2.effective ops
    else (r.perform op).2.effective ops

/-! ### Answers and the searches that they come from -/

/-- What a search decides. -/
def verdictOf (o : Outcome) : Except ReasonerError Bool :=
  match o.status with
  | .exhausted => .error (.exhausted o.stoppedBy o.statistics)
  | .refuted => .ok true
  | _ => .ok false

/-- What a search for values finds. -/
def answerOf (vars : List String) (o : Outcome) :
    Except ReasonerError (Option (List (String × Term))) :=
  match verdictOf o with
  | .error e => .error e
  | .ok false => .ok none
  | .ok true =>
    if vars = [] then .ok (some [])
    else
      match o.proofClause with
      | .ok f => .ok (some (bindingsOf vars f.clause))
      | .error e => .error (.noProof e)

/-- The search for the values that a question asks for. -/
def searchValues (r : Reasoner) (q : Question) : Except ReasonerError (Outcome × Reasoner) :=
  match q.formula.freeVarsFault, leadingFault q.formula with
  | some fault, _ => .error (.refused (.misshape fault))
  | none, some i => .error (.refused (.misshape (.notTerm i)))
  | none, none =>
    match r.queryClauses q (negatedGoal q.formula) with
    | .error e => .error (.refused e)
    | .ok ds => r.search q ds

/-- A reply drawn from a search, if there is one. -/
def drawFrom {α : Type} (r : Reasoner) (found : Except ReasonerError (Outcome × Reasoner))
    (reply : Outcome → Except ReasonerError α) : Except ReasonerError α × Reasoner :=
  match found with
  | .error e => (.error e, r)
  | .ok (o, r) => (reply o, (r.conclude o).2)

variable {r r' : Reasoner} {q : Question} {o : Outcome} {op : Operation} {ops : List Operation}

theorem conclude_fst (r : Reasoner) (o : Outcome) : (r.conclude o).1 = verdictOf o := by
  rw [conclude, verdictOf]
  cases o.status <;> rfl

theorem drawFrom_error {α : Type} (r : Reasoner) (e : ReasonerError)
    (reply : Outcome → Except ReasonerError α) : r.drawFrom (.error e) reply = (.error e, r) :=
  rfl

theorem drawFrom_ok {α : Type} (r : Reasoner) (p : Outcome × Reasoner)
    (reply : Outcome → Except ReasonerError α) :
    r.drawFrom (.ok p) reply = (reply p.1, (p.2.conclude p.1).2) :=
  rfl

theorem entails_eq (r : Reasoner) (q : Question) :
    r.entails q = r.drawFrom (r.prove q) verdictOf := by
  rw [entails]
  cases r.prove q with
  | error e => rfl
  | ok p => exact Prod.ext (conclude_fst p.2 p.1) rfl

/-- Without variables to find values for, the search is that for a proof. -/
theorem searchValues_of_answerVars_nil (hf : q.formula.freeVarsFault = none)
    (hl : leadingFault q.formula = none) (hv : answerVars q.formula = []) :
    r.searchValues q = r.prove q := by
  have hgoal : negatedGoal q.formula = .not q.formula.closure := by
    rw [negatedGoal, hv]
  cases hq : r.queryClauses q (.not q.formula.closure) <;>
    simp [searchValues, prove, hf, hl, hgoal, hq]

theorem solve_eq (r : Reasoner) (q : Question) :
    r.solve q = r.drawFrom (r.searchValues q) (answerOf (answerVars q.formula)) := by
  rw [solve]
  cases hf : q.formula.freeVarsFault with
  | some fault => simp [searchValues, hf, drawFrom_error]
  | none =>
    cases hl : leadingFault q.formula with
    | some i => simp [searchValues, hf, hl, drawFrom_error]
    | none =>
      cases hv : answerVars q.formula with
      | nil =>
        simp only [searchValues_of_answerVars_nil hf hl hv, entails_eq]
        cases r.prove q with
        | error e => rfl
        | ok p =>
          simp only [drawFrom_ok, answerOf]
          rcases verdictOf p.1 with e | (_ | _) <;> rfl
      | cons x xs =>
        have hgoal : negatedGoal q.formula =
            .or (.not (belowExistentials q.formula)) (answerAtom (x :: xs)) := by
          rw [negatedGoal, hv]
        simp only [searchValues, hf, hl, hgoal]
        cases r.queryClauses q
            (.or (.not (belowExistentials q.formula)) (answerAtom (x :: xs))) with
        | error e => rfl
        | ok ds =>
          dsimp only
          cases r.search q ds with
          | error e => rfl
          | ok p =>
            simp only [drawFrom_ok, answerOf, ← conclude_fst p.2 p.1]
            rcases p.2.conclude p.1 with ⟨e | (_ | _), r'⟩
            · rfl
            · rfl
            · cases p.1.proofClause <;> rfl

/-! ### What answers depend on -/

/-- All that matters for later answers. The rest is remembered of searches. -/
def base (r : Reasoner) : Limits × SearchOptions × KnowledgeBase := (r.limits, r.options, r.kb)

theorem search_congr (h : r.base = r'.base) (q : Question) (ds : List Derived) :
    (r.search q ds).map Prod.fst = (r'.search q ds).map Prod.fst := by
  obtain ⟨hl, ho, hk⟩ : r.limits = r'.limits ∧ r.options = r'.options ∧ r.kb = r'.kb := by
    simpa [base] using h
  rw [search, search, hl, ho, hk]
  cases r'.limits.override? q.overrides with
  | none => rfl
  | some limits =>
    dsimp only
    cases Search.create limits r'.options q.around with
    | error e => rfl
    | ok s =>
      dsimp only
      split
      · rfl
      · split <;> rfl

theorem queryClauses_congr (h : r.base = r'.base) (q : Question) (g : Formula) :
    r.queryClauses q g = r'.queryClauses q g := by
  rw [queryClauses, queryClauses, (Prod.mk.inj (Prod.mk.inj h).2).2]

theorem prove_congr (h : r.base = r'.base) (q : Question) :
    (r.prove q).map Prod.fst = (r'.prove q).map Prod.fst := by
  rw [prove, prove]
  cases q.formula.freeVarsFault with
  | some fault => rfl
  | none =>
    simp only [queryClauses_congr h]
    cases r'.queryClauses q (.not q.formula.closure) with
    | error e => rfl
    | ok ds => exact search_congr h q ds

theorem searchValues_congr (h : r.base = r'.base) (q : Question) :
    (r.searchValues q).map Prod.fst = (r'.searchValues q).map Prod.fst := by
  rw [searchValues, searchValues]
  split
  · rfl
  · rfl
  · simp only [queryClauses_congr h]
    cases r'.queryClauses q (negatedGoal q.formula) with
    | error e => rfl
    | ok ds => exact search_congr h q ds

theorem drawFrom_congr {α : Type} {found found' : Except ReasonerError (Outcome × Reasoner)}
    (h : found.map Prod.fst = found'.map Prod.fst) (reply : Outcome → Except ReasonerError α) :
    (r.drawFrom found reply).1 = (r'.drawFrom found' reply).1 := by
  cases found with
  | error e =>
    cases found' with
    | error e' => cases h; rfl
    | ok p' => cases h
  | ok p =>
    cases found' with
    | error e' => cases h
    | ok p' =>
      have hp : p.1 = p'.1 := Except.ok.inj h
      rw [drawFrom_ok, drawFrom_ok, hp]

theorem ask_congr {q : Request} {answer answer' : Question → Except ReasonerError Reply × Reasoner}
    (h : ∀ q, (answer q).1 = (answer' q).1) : (r.ask q answer).1 = (r'.ask q answer').1 := by
  rw [ask, ask]
  cases q.read with
  | error e => rfl
  | ok q => exact congrArg (Except.mapError OperationError.failed) (h q)

/-- Questions are answered alike. -/
theorem reply_congr (h : r.base = r'.base) (q : Request) :
    (r.perform (.entails q)).1 = (r'.perform (.entails q)).1 ∧
    (r.perform (.prove q)).1 = (r'.perform (.prove q)).1 ∧
    (r.perform (.solve q)).1 = (r'.perform (.solve q)).1 := by
  refine ⟨ask_congr fun q => ?_, ask_congr fun q => ?_, ask_congr fun q => ?_⟩
  · dsimp only
    rw [entails_eq, entails_eq, drawFrom_congr (prove_congr h q)]
  · dsimp only
    rw [prove_congr h]
  · dsimp only
    rw [solve_eq, solve_eq, drawFrom_congr (searchValues_congr h q)]

theorem insert_congr (h : r.base = r'.base) (f : Statement)
    (add : List Item → Formula → Except NormalFormError KnowledgeEntry × KnowledgeBase) :
    (r.insert f add).1 = (r'.insert f add).1 ∧
      (r.insert f add).2.base = (r'.insert f add).2.base := by
  rw [insert, insert]
  cases f.read with
  | error e => exact ⟨rfl, h⟩
  | ok f =>
    dsimp only
    simp only [base, Prod.mk.injEq] at h
    split <;> exact ⟨rfl, by simp [base, h]⟩

/-! ### What calls leave -/

theorem base_conclude (r : Reasoner) (o : Outcome) : (r.conclude o).2.base = r.base := by
  rw [conclude]
  cases o.status <;> rfl

theorem search_snd {q : Question} {ds : List Derived}
    (h : r.search q ds = .ok (o, r')) : r' = { r with last := some o } := by
  obtain ⟨s, -, -, -, rfl, rfl⟩ := search_eq_ok h
  rfl

theorem prove_eq_ok (h : r.prove q = .ok (o, r')) :
    ∃ ds, r.queryClauses q (.not q.formula.closure) = .ok ds ∧
      r.search q ds = .ok (o, r') := by
  rw [prove] at h
  split at h
  · cases h
  · split at h
    · cases h
    · next ds hds => exact ⟨ds, hds, h⟩

theorem searchValues_eq_ok (h : r.searchValues q = .ok (o, r')) :
    ∃ ds, r.queryClauses q (negatedGoal q.formula) = .ok ds ∧
      r.search q ds = .ok (o, r') := by
  rw [searchValues] at h
  split at h
  · cases h
  · cases h
  · split at h
    · cases h
    · next ds hds => exact ⟨ds, hds, h⟩

theorem base_of_prove (h : r.prove q = .ok (o, r')) : r'.base = r.base := by
  obtain ⟨ds, -, hs⟩ := prove_eq_ok h
  rw [search_snd hs]
  rfl

theorem base_of_searchValues (h : r.searchValues q = .ok (o, r')) : r'.base = r.base := by
  obtain ⟨ds, -, hs⟩ := searchValues_eq_ok h
  rw [search_snd hs]
  rfl

theorem base_drawFrom {α : Type} {found : Except ReasonerError (Outcome × Reasoner)}
    (h : ∀ o r', found = .ok (o, r') → r'.base = r.base)
    (reply : Outcome → Except ReasonerError α) : (r.drawFrom found reply).2.base = r.base := by
  cases found with
  | error e => rfl
  | ok p => exact (base_conclude p.2 p.1).trans (h p.1 p.2 rfl)

theorem base_ask {q : Request} {answer : Question → Except ReasonerError Reply × Reasoner}
    (h : ∀ q, (answer q).2.base = r.base) : (r.ask q answer).2.base = r.base := by
  rw [ask]
  cases q.read with
  | error e => rfl
  | ok q => exact h q

theorem base_perform_of_not_mayChange (h : op.mayChange = false) :
    (r.perform op).2.base = r.base := by
  cases op with
  | add | addAxiom | addFact | addRule | reset => cases h
  | entails q =>
    refine base_ask fun q => ?_
    rw [entails_eq]
    exact base_drawFrom (fun o r' => base_of_prove) verdictOf
  | prove q =>
    refine base_ask fun q => ?_
    dsimp only
    cases hp : r.prove q with
    | error e => rfl
    | ok p => exact base_of_prove hp
  | solve q =>
    refine base_ask fun q => ?_
    rw [solve_eq]
    exact base_drawFrom (fun o r' => base_of_searchValues) _
  | getProof => rfl

/-- A way to add a formula to a knowledge base. -/
abbrev Addition :=
  KnowledgeBase → List Item → Formula → Except NormalFormError KnowledgeEntry × KnowledgeBase

/-- A formula that is accepted makes for a new version, and one that is refused for none. -/
structure Addition.Lawful (add : Addition) : Prop where
  refused {kb kb' : KnowledgeBase} {as : List Item} {f : Formula} {e : NormalFormError}
    (h : add kb as f = (.error e, kb')) : kb' = kb
  version {kb kb' : KnowledgeBase} {as : List Item} {f : Formula} {e : KnowledgeEntry}
    (h : add kb as f = (.ok e, kb')) : kb'.version = kb.version + 1
  built {kb kb' : KnowledgeBase} {as : List Item} {f : Formula} {e : KnowledgeEntry}
    (h : add kb as f = (.ok e, kb')) (hb : kb.Built) : kb'.Built

theorem lawful_add (name role : Item) : Addition.Lawful fun kb => kb.add name role where
  refused := KnowledgeBase.add_eq_error
  version h := by
    rw [KnowledgeBase.add.eq_def] at h
    dsimp only at h
    split at h
    · cases h
    · rw [← (Prod.mk.inj h).2]
  built h hb := hb.add h

/-- An addition that looks at the form of the formula first. -/
theorem Addition.Lawful.guarded {add : Addition} (h : add.Lawful) (isMeant : Formula → Bool)
    (fault : Formula → NormalFormError) : Addition.Lawful fun kb as f =>
      if isMeant f then add kb as f else (.error (fault f), kb) where
  refused ha := by
    split at ha
    · exact h.refused ha
    · exact (Prod.mk.inj ha).2.symm
  version ha := by
    split at ha
    · exact h.version ha
    · cases ha
  built ha hb := by
    split at ha
    · exact h.built ha hb
    · cases ha

theorem lawful_addFact (name : Item) : Addition.Lawful fun kb => kb.addFact name :=
  (lawful_add name (.str factRole)).guarded _ _

theorem lawful_addRule (name : Item) : Addition.Lawful fun kb => kb.addRule name :=
  (lawful_add name (.str ruleRole)).guarded _ _

/-- Every call that may change the knowledge base is a reset or an addition. -/
theorem mayChange_cases (h : op.mayChange = true) :
    op = .reset ∨ ∃ (f : Statement) (add : Addition), add.Lawful ∧
      ∀ r : Reasoner, r.perform op = r.insert f (add r.kb) := by
  cases op with
  | add name role f => exact Or.inr ⟨f, _, lawful_add name role, fun r => rfl⟩
  | addAxiom name f => exact Or.inr ⟨f, _, lawful_add name (.str assumptionRule), fun r => rfl⟩
  | addFact name f => exact Or.inr ⟨f, _, lawful_addFact name, fun r => rfl⟩
  | addRule name f => exact Or.inr ⟨f, _, lawful_addRule name, fun r => rfl⟩
  | reset => exact Or.inl rfl
  | entails | prove | solve | getProof => cases h

/-- An addition is accepted and leaves a new knowledge base, or it leaves everything as it is. -/
theorem insert_cases (r : Reasoner) (f : Statement) {add : Addition} (hadd : add.Lawful) :
    (∃ w e kb, f.read = .ok w ∧ add r.kb w.arities w.value = (.ok e, kb) ∧
      r.insert f (add r.kb) = (.ok (.added e), { r with kb })) ∨
    ∃ e, r.insert f (add r.kb) = (.error e, r) := by
  rw [insert]
  cases hf : f.read with
  | error e => exact Or.inr ⟨_, rfl⟩
  | ok w =>
    dsimp only
    split
    · next e kb ha =>
      obtain rfl := hadd.refused ha
      exact Or.inr ⟨_, rfl⟩
    · next e kb ha => exact Or.inl ⟨w, e, kb, rfl, ha, rfl⟩

/-- An addition that fails leaves everything as it is. -/
theorem perform_of_mayChange (hop : op.mayChange = true) (h : r.changes op = false) :
    (r.perform op).2 = r := by
  rw [changes, hop, Bool.true_and] at h
  rcases mayChange_cases hop with rfl | ⟨f, add, hadd, hperform⟩
  · cases h
  · rw [hperform] at h ⊢
    rcases insert_cases r f hadd with ⟨w, e, kb, -, -, hr⟩ | ⟨e, hr⟩
    · rw [hr] at h
      cases h
    · rw [hr]

/-- Questions and failed calls leave what matters as it is. -/
theorem base_perform_of_not_changes (h : r.changes op = false) :
    (r.perform op).2.base = r.base := by
  by_cases hop : op.mayChange = true
  · rw [perform_of_mayChange hop h]
  · exact base_perform_of_not_mayChange (Bool.eq_false_of_not_eq_true hop)

/-- Additions are accepted alike, and all calls leave the same. -/
theorem perform_congr (h : r.base = r'.base) (op : Operation) :
    r.changes op = r'.changes op ∧ (r.perform op).2.base = (r'.perform op).2.base := by
  by_cases hop : op.mayChange = true
  · rcases mayChange_cases hop with rfl | ⟨f, add, -, hperform⟩
    · refine ⟨rfl, ?_⟩
      simp only [base, Prod.mk.injEq] at h
      simp [perform, reset, base, h]
    · obtain ⟨hreply, hbase⟩ := insert_congr h f (add r'.kb)
      have hk : r.kb = r'.kb := congrArg (fun b => b.2.2) h
      rw [changes, changes, hperform, hperform, hk, hreply]
      exact ⟨rfl, hbase⟩
  · have hop := Bool.eq_false_of_not_eq_true hop
    refine ⟨by rw [changes, changes, hop]; rfl, ?_⟩
    rw [base_perform_of_not_mayChange hop, base_perform_of_not_mayChange hop, h]

/-! ### Sessions -/

theorem base_run_effective (h : r.base = r'.base) (ops : List Operation) :
    (r.run ops).base = (r'.run (r.effective ops)).base := by
  induction ops generalizing r r' with
  | nil => exact h
  | cons op ops ih =>
    rw [effective]
    split
    · exact ih (perform_congr h op).2
    · next hno =>
      exact ih ((base_perform_of_not_changes (Bool.eq_false_of_not_eq_true hno)).trans h)

theorem effective_effective (h : r.base = r'.base) (ops : List Operation) :
    r'.effective (r.effective ops) = r.effective ops := by
  induction ops generalizing r r' with
  | nil => rfl
  | cons op ops ih =>
    obtain ⟨hchanges, hbase⟩ := perform_congr h op
    rw [effective]
    split
    · next hyes =>
      rw [effective, if_pos (hchanges ▸ hyes), ih hbase]
    · next hno =>
      exact ih ((base_perform_of_not_changes (Bool.eq_false_of_not_eq_true hno)).trans h)

/-- A session leaves the knowledge base that its accepted additions and resets leave on their own,
where all of them are accepted again, and after it questions are answered as they are there. -/
theorem kb_run_effective (r : Reasoner) (ops : List Operation) :
    (r.run ops).kb = (r.run (r.effective ops)).kb ∧
    r.effective (r.effective ops) = r.effective ops ∧
    ∀ q, ((r.run ops).perform (.entails q)).1 =
        ((r.run (r.effective ops)).perform (.entails q)).1 ∧
      ((r.run ops).perform (.prove q)).1 = ((r.run (r.effective ops)).perform (.prove q)).1 ∧
      ((r.run ops).perform (.solve q)).1 = ((r.run (r.effective ops)).perform (.solve q)).1 := by
  have hbase : (r.run ops).base = (r.run (r.effective ops)).base := base_run_effective rfl ops
  refine ⟨?_, effective_effective rfl ops, reply_congr hbase⟩
  exact congrArg (fun b => b.2.2) hbase

end Reasoner

end Elenchus

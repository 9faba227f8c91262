import Elenchus.Proofs.Lineage
import Elenchus.Proofs.Operations

/-! When a proof is at hand in a session, and which call it is from. -/

namespace Elenchus

namespace Reasoner

variable {r : Reasoner} {q : Question} {o : Outcome} {op : Operation} {ops : List Operation}

/-! ### Definitions -/

/-- The outcome of the search that a call for a verdict or for values has made to its end. -/
def concludes (r : Reasoner) : Operation → Option Outcome
  | .entails q => q.read.toOption.bind fun q => (r.prove q).toOption.map Prod.fst
  | .solve q => q.read.toOption.bind fun q => (r.searchValues q).toOption.map Prod.fst
  | _ => none

/-- The call neither changes the knowledge base nor concludes. -/
def Idle (r : Reasoner) (op : Operation) : Prop := r.changes op = false ∧ r.concludes op = none

/-- Every call of the session is idle. -/
def Idles (r : Reasoner) : List Operation → Prop
  | [] => True
  | op :: ops => r.Idle op ∧ (r.perform op).2.Idles ops

/-- Of the calls that conclude, `op` is the last in the session. It is made when the reasoner is
`s`, its search has the outcome `o`, and the knowledge base does not change after it. -/
def ConcludesLast (r : Reasoner) (ops : List Operation) (s : Reasoner) (op : Operation)
    (o : Outcome) : Prop :=
  ∃ before after, ops = before ++ op :: after ∧ s = r.run before ∧ s.concludes op = some o ∧
    (s.perform op).2.Idles after

/-- The search of the proof at hand. -/
def current (r : Reasoner) : Option Outcome :=
  match r.proof with
  | some (version, o) => if version = r.kb.version then some o else none
  | none => none

/-! ### Refutations have proofs -/

theorem Searched.descends {ds : List Derived} {s : Search} (h : r.Searched ds s) :
    s.Descends (r.premises ds) := by
  obtain ⟨limits, selector, around, rfl⟩ := h
  have hcreate : ({ limits, selector, around, strategy := r.options.strategy } : Search).Descends
      (r.premises ds) := (Search.descends_create limits selector around _).of_subset (by simp)
  exact (hcreate.seedAll fun d hd => hd).run

/-- Premises have no parents, whatever the formula that is refuted. -/
theorem parents_premises (hb : r.kb.Built) {g : Formula} {ds : List Derived}
    (hds : r.queryClauses q g = .ok ds) : ∀ d ∈ r.premises ds, Arena.parentsOf d = [] := by
  intro d hd
  rcases mem_premises.1 hd with ⟨f, hf, rfl⟩ | hd
  · obtain ⟨e, he, hfe⟩ := hb.valid.origin f hf
    exact (hb.valid.input e he _ hfe).parents
  · obtain ⟨sig, -, rfl⟩ := queryClauses_check hds
    obtain ⟨c, -, rfl⟩ := List.mem_map.1 hd
    rfl

/-- A refutation can be shown, with or without the occurs check. -/
theorem exists_proof_of_search (hb : r.kb.Built) {g : Formula} {ds : List Derived} {r' : Reasoner}
    (hds : r.queryClauses q g = .ok ds) (h : r.search q ds = .ok (o, r'))
    (ho : o.status = .refuted) :
    (∃ f, o.proofClause = .ok f) ∧ ∃ t, o.proofTrace = .ok t := by
  obtain ⟨s, hs, -, -, rfl, -⟩ := search_eq_ok h
  have hst : s.status = .refuted := ho
  obtain ⟨f, hid, hf, -⟩ := hs.descends.refuted hst
  obtain ⟨t, ht, -⟩ := Proof.exists_trace (hs.descends.ordered (parents_premises hb hds)) hf
  refine ⟨⟨f, ?_⟩, t, ?_⟩
  · have hfiled : (some f.id).bind s.agenda.usable.arena.filed? = some f :=
      Arena.filed?_of_files hf
    simp only [Search.outcome, Outcome.proofClause, hst, hid, hfiled]
  · simp only [Search.outcome, Outcome.proofTrace, hst, hid, ht]
    rfl

/-! ### Calls -/

theorem conclude_snd (r : Reasoner) (o : Outcome) : (r.conclude o).2 =
    { r with proof := if o.status = .refuted then some (r.kb.version, o) else none } := by
  rw [conclude]
  cases o.status <;> rfl

theorem concludes_cases (h : r.concludes op = some o) :
    (∃ w q r', op = .entails w ∧ w.read = .ok q ∧ r.prove q = .ok (o, r')) ∨
    ∃ w q r', op = .solve w ∧ w.read = .ok q ∧ r.searchValues q = .ok (o, r') := by
  cases op with
  | entails w =>
    obtain ⟨q, hq, h⟩ := Option.bind_eq_some_iff.1 h
    obtain ⟨p, hp, rfl⟩ := Option.map_eq_some_iff.1 h
    exact Or.inl ⟨w, q, p.2, rfl, eq_ok_of_toOption hq, eq_ok_of_toOption hp⟩
  | solve w =>
    obtain ⟨q, hq, h⟩ := Option.bind_eq_some_iff.1 h
    obtain ⟨p, hp, rfl⟩ := Option.map_eq_some_iff.1 h
    exact Or.inr ⟨w, q, p.2, rfl, eq_ok_of_toOption hq, eq_ok_of_toOption hp⟩
  | add | addAxiom | addFact | addRule | prove | getProof | reset => cases h

theorem exists_search (h : r.concludes op = some o) :
    ∃ q g ds r', r.queryClauses q g = .ok ds ∧ r.search q ds = .ok (o, r') := by
  rcases concludes_cases h with ⟨w, q, r', -, -, hp⟩ | ⟨w, q, r', -, -, hp⟩
  · obtain ⟨ds, hds, hs⟩ := prove_eq_ok hp
    exact ⟨q, _, ds, r', hds, hs⟩
  · obtain ⟨ds, hds, hs⟩ := searchValues_eq_ok hp
    exact ⟨q, _, ds, r', hds, hs⟩

theorem perform_entails {w : Request} {r' : Reasoner} (hq : w.read = .ok q)
    (h : r.prove q = .ok (o, r')) : r.perform (.entails w) =
      (((verdictOf o).map .verdict).mapError .failed, (r'.conclude o).2) := by
  simp only [perform, ask, hq, entails_eq, h, drawFrom_ok]

theorem perform_solve {w : Request} {r' : Reasoner} (hq : w.read = .ok q)
    (h : r.searchValues q = .ok (o, r')) : r.perform (.solve w) =
      (((answerOf (answerVars q.formula) o).map .answer).mapError .failed, (r'.conclude o).2) := by
  simp only [perform, ask, hq, solve_eq, h, drawFrom_ok]

/-- A call that concludes replaces the proof at hand. -/
theorem perform_of_concludes (h : r.concludes op = some o) : (r.perform op).2 = { r with
    last := some o
    proof := if o.status = .refuted then some (r.kb.version, o) else none } := by
  rcases concludes_cases h with ⟨w, q, r', rfl, hq, hp⟩ | ⟨w, q, r', rfl, hq, hp⟩
  · obtain ⟨ds, -, hs⟩ := prove_eq_ok hp
    rw [perform_entails hq hp, conclude_snd, search_snd hs]
  · obtain ⟨ds, -, hs⟩ := searchValues_eq_ok hp
    rw [perform_solve hq hp, conclude_snd, search_snd hs]

theorem kb_perform_of_idle (h : r.Idle op) : (r.perform op).2.kb = r.kb :=
  congrArg (fun b => b.2.2) (base_perform_of_not_changes h.1)

theorem proof_perform_of_idle (h : r.Idle op) : (r.perform op).2.proof = r.proof := by
  obtain ⟨hchanges, hconcludes⟩ := h
  cases op with
  | add | addAxiom | addFact | addRule => rw [perform_of_mayChange rfl hchanges]
  | reset => cases hchanges
  | getProof => rfl
  | prove w =>
    rw [perform, ask]
    cases w.read with
    | error e => rfl
    | ok q =>
      dsimp only
      cases hp : r.prove q with
      | error e => rfl
      | ok p =>
        obtain ⟨ds, -, hs⟩ := prove_eq_ok hp
        change p.2.proof = r.proof
        rw [search_snd hs]
  | entails w =>
    rw [perform, ask]
    cases hq : w.read with
    | error e => rfl
    | ok q =>
      cases hp : r.prove q with
      | error e => simp only [entails_eq, hp, drawFrom_error]
      | ok p => simp [concludes, hq, hp, Except.toOption] at hconcludes
  | solve w =>
    rw [perform, ask]
    cases hq : w.read with
    | error e => rfl
    | ok q =>
      cases hp : r.searchValues q with
      | error e => simp only [solve_eq, hp, drawFrom_error]
      | ok p => simp [concludes, hq, hp, Except.toOption] at hconcludes

theorem perform_of_changes (h : r.changes op = true) :
    (r.perform op).2.kb.version = r.kb.version + 1 ∧
    ((r.perform op).2.proof = r.proof ∨ (r.perform op).2.proof = none) ∧
    (r.kb.Built → (r.perform op).2.kb.Built) := by
  obtain ⟨hop, hok⟩ := Bool.and_eq_true_iff.1 h
  rcases mayChange_cases hop with rfl | ⟨f, add, hadd, hperform⟩
  · exact ⟨rfl, Or.inr rfl, fun _ => .empty _⟩
  · rw [hperform] at hok ⊢
    rcases insert_cases r f hadd with ⟨w, e, kb, -, ha, hr⟩ | ⟨e, hr⟩
    · rw [hr]
      exact ⟨hadd.version ha, Or.inl rfl, hadd.built ha⟩
    · rw [hr] at hok
      cases hok

/-- Every call changes the knowledge base, concludes or is idle. -/
theorem call_cases (r : Reasoner) (op : Operation) :
    r.changes op = true ∨ (∃ o, r.concludes op = some o) ∨ r.Idle op := by
  by_cases hchanges : r.changes op = true
  · exact Or.inl hchanges
  · cases hconcludes : r.concludes op with
    | some o => exact Or.inr (Or.inl ⟨o, rfl⟩)
    | none => exact Or.inr (Or.inr ⟨Bool.eq_false_of_not_eq_true hchanges, hconcludes⟩)

/-! ### Sessions -/

/-- The knowledge base comes from additions, and no proof is of a version that is yet to come. -/
structure Ready (r : Reasoner) : Prop where
  built : r.kb.Built
  proof : ∀ p, r.proof = some p → p.1 ≤ r.kb.version

theorem Ready.perform (h : r.Ready) (op : Operation) : (r.perform op).2.Ready := by
  rcases call_cases r op with hchanges | ⟨o, hconcludes⟩ | hidle
  · obtain ⟨hversion, hproof, hbuilt⟩ := perform_of_changes hchanges
    refine ⟨hbuilt h.built, fun p hp => ?_⟩
    rcases hproof with hsame | hnone
    · have := h.proof p (hsame ▸ hp)
      omega
    · rw [hnone] at hp
      cases hp
  · rw [perform_of_concludes hconcludes]
    refine ⟨h.built, fun p hp => ?_⟩
    dsimp only at hp
    split at hp
    · cases hp
      exact Nat.le_refl _
    · cases hp
  · refine ⟨kb_perform_of_idle hidle ▸ h.built, fun p hp => ?_⟩
    rw [kb_perform_of_idle hidle]
    exact h.proof p (proof_perform_of_idle hidle ▸ hp)

theorem Ready.run (h : r.Ready) (ops : List Operation) : (r.run ops).Ready := by
  induction ops generalizing r with
  | nil => exact h
  | cons op ops ih => exact ih (h.perform op)

theorem current_of_idle (h : r.Idle op) : (r.perform op).2.current = r.current := by
  rw [current, current, proof_perform_of_idle h, kb_perform_of_idle h]

theorem current_of_concludes (h : r.concludes op = some o) :
    (r.perform op).2.current = if o.status = .refuted then some o else none := by
  rw [perform_of_concludes h, current]
  by_cases ho : o.status = .refuted <;> simp [ho]

theorem current_of_idles (h : r.Idles ops) : (r.run ops).current = r.current := by
  induction ops generalizing r with
  | nil => rfl
  | cons op ops ih => exact (ih h.2).trans (current_of_idle h.1)

theorem run_append (r : Reasoner) (ops ops' : List Operation) :
    r.run (ops ++ ops') = (r.run ops).run ops' := by
  induction ops generalizing r with
  | nil => rfl
  | cons op ops ih => exact ih _

theorem ConcludesLast.current {s : Reasoner} (h : r.ConcludesLast ops s op o) :
    (r.run ops).current = if o.status = .refuted then some o else none := by
  obtain ⟨before, after, rfl, rfl, hconcludes, hidles⟩ := h
  rw [run_append]
  exact (current_of_idles hidles).trans (current_of_concludes hconcludes)

theorem ConcludesLast.exists_proof {s : Reasoner} (h : r.ConcludesLast ops s op o) (hr : r.Ready)
    (ho : o.status = .refuted) : ∃ t, o.proofTrace = .ok t := by
  obtain ⟨before, after, -, rfl, hconcludes, -⟩ := h
  obtain ⟨q, g, ds, r', hds, hs⟩ := exists_search hconcludes
  exact (exists_proof_of_search (hr.run before).built hds hs ho).2

/-- A reasoner that knows nothing yet. -/
def start (limits : Limits) (options : SearchOptions) : Reasoner := { limits, options }

end Reasoner

end Elenchus

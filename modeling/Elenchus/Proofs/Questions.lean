import Elenchus.Proofs.KnowledgeBases
import Elenchus.Proofs.SearchCoverage
import Elenchus.Reasoner.Basic

/-!
What the answer to a question rests on: the clauses of the question, the search that starts from
them and the active clauses of the knowledge base, and the status in which it ends.
-/

namespace Elenchus

/-! ### Refutations without answer literals -/

theorem isReserved_of_isAnswer {l : Literal} (h : l.isAnswer = true) :
    isReserved l.atom.pred = true := by
  obtain ⟨cs, hcs⟩ := List.isPrefixOf_iff_prefix.1 h
  rw [isReserved, ← hcs]
  rfl

namespace Search

variable {s : Search} {premises : List Derived}

/-- Every predicate of a filed clause is one of a premise. -/
theorem Sound.predicate (h : s.Sound premises) {P : Symbol → Prop}
    (hP : ∀ d ∈ premises, ∀ l ∈ d.clause.literals, P l.atom.predicate) {f : Filed}
    (hf : s.Files f) : ∀ l ∈ f.clause.literals, P l.atom.predicate := by
  refine h.history.induction (P := fun d => ∀ l ∈ d.clause.literals, P l.atom.predicate) hP
    (fun ps d hps hd l hl => ?_) hf
  obtain ⟨p, hp, m, hm, he⟩ := hd.predicate_mem hl
  exact he ▸ hps p hp m hm

theorem Sound.pred (h : s.Sound premises) {P : String → Prop}
    (hP : ∀ d ∈ premises, ∀ l ∈ d.clause.literals, P l.atom.pred) {f : Filed} (hf : s.Files f) :
    ∀ l ∈ f.clause.literals, P l.atom.pred :=
  h.predicate (P := fun s => P s.name) hP hf

/-- Premises without reserved predicates are refuted by the empty clause only. -/
theorem Sound.exists_empty (h : s.Sound premises) (hs : s.status = .refuted)
    (hres : ∀ d ∈ premises, ∀ l ∈ d.clause.literals, isReserved l.atom.pred = false) :
    ∃ f, s.proofId = some f.id ∧ s.Files f ∧ f.clause.literals = [] := by
  obtain ⟨f, hid, hf, hr⟩ := h.refuted hs
  rcases isRefutation_iff.1 hr with he | ⟨l, hl, ha⟩
  · exact ⟨f, hid, hf, he⟩
  · have := h.pred (P := fun p => isReserved p = false) hres hf l (by simp [hl])
    simp [isReserved_of_isAnswer ha] at this

/-- Premises that are refuted by the empty clause are true in no structure. -/
theorem Sound.unsatisfiable {D : Type*} (h : s.Sound premises) {f : Filed} (hf : s.Files f)
    (he : f.clause.literals = []) (v : String → D) (M : Structure D) :
    ¬ ∀ d ∈ premises, M.Satisfies d.clause := by
  intro hM
  have hsat := h.history.induction (P := fun d => M.Satisfies d.clause) hM
    (fun ps d hps hd => hd.sound hps) hf
  obtain ⟨l, hl, -⟩ := hsat v
  have : l ∈ f.clause.literals := hl
  simp [he] at this

end Search

/-! ### Questions -/

/-- A table that accepts a formula accepts the negation of its closure. -/
theorem Signature.Accepts.not_closure {sig sig' : Signature} {f : Formula}
    (h : sig.Accepts f sig') : sig.Accepts (.not f.closure) sig' := by
  have hatoms : (Formula.not f.closure).atoms = f.atoms := Formula.atoms_closure f
  refine ⟨h.proper.closure, h.grows, h.skolems, ?_, ?_⟩ <;> rw [hatoms]
  · exact h.known
  · exact h.notSkolem

theorem Formula.models_not_closure {D : Type*} [Nonempty D] {M : Structure D} {f : Formula} :
    M.Models (.not f.closure) ↔ ¬ M.Models f := by
  refine ⟨fun h hf => ?_, fun h v hv => h (holds_closure.1 hv)⟩
  exact h (fun _ => Classical.arbitrary D) (holds_closure.2 hf)

namespace Reasoner

variable {r r' : Reasoner} {q : Question} {ds : List Derived} {s : Search} {f g : Formula}

/-- The clauses that a search begins with. -/
def premises (r : Reasoner) (ds : List Derived) : List Derived :=
  r.kb.clauses.map Filed.derived ++ ds

/-- The search for a refutation has been run to its end. -/
def Searched (r : Reasoner) (ds : List Derived) (s : Search) : Prop :=
  ∃ limits selector around,
    s = (({ limits, selector, around, strategy := r.options.strategy } : Search).seedAll
      (r.premises ds)).run

theorem search_eq_ok {o : Outcome} (h : r.search q ds = .ok (o, r')) :
    ∃ s, r.Searched ds s ∧ s.fault = none ∧ s.status.isFinal = true ∧ o = s.outcome ∧
      r' = { r with last := some s.outcome } := by
  rw [Reasoner.search] at h
  split at h
  · simp at h
  · next limits _ =>
    split at h
    · simp at h
    · next s₀ hs =>
      obtain ⟨selector, -, rfl⟩ : ∃ selector, Search.selectorOf r.options = .ok selector ∧
          s₀ = { limits, selector, around := q.around, strategy := r.options.strategy } := by
        rw [Search.create] at hs
        cases hsel : Search.selectorOf r.options with
        | error e => simp [hsel, Except.map] at hs
        | ok selector => exact ⟨selector, rfl, by simpa [hsel, Except.map] using hs.symm⟩
      dsimp only at h
      split at h
      · simp at h
      · next hfault =>
        split at h
        · next hfinal =>
          obtain ⟨rfl, rfl⟩ := Prod.mk.inj (Except.ok.inj h)
          exact ⟨_, ⟨limits, selector, q.around, rfl⟩, hfault, hfinal, rfl, rfl⟩
        · simp at h

theorem queryClauses_check (h : r.queryClauses q g = .ok ds) :
    ∃ sig : Signature, r.kb.signature.check false q.arities q.formula = (sig, none) ∧
      ds = (g.clauses sig).1.map (⟨·, some (.premise (.str querySource)
        (.str negatedGoalRule) (.str negatedGoalRule))⟩) := by
  rw [queryClauses] at h
  split at h
  · simp at h
  · next sig hc =>
    have hn := Signature.normalizeChecked_of_normalize (Prod.ext h rfl)
    rw [Signature.normalizeChecked, if_neg (by simp)] at hn
    exact ⟨sig, hc, (Signature.normalizeUnchecked_eq_ok hn).1⟩

theorem queryClauses_eq_ok (h : r.queryClauses q g = .ok ds) :
    ∃ sig : Signature, r.kb.signature.Accepts q.formula sig ∧
      (∀ a ∈ q.formula.atoms, isReserved a.pred = false) ∧
      ds = (g.clauses sig).1.map (⟨·, some (.premise (.str querySource)
        (.str negatedGoalRule) (.str negatedGoalRule))⟩) := by
  obtain ⟨sig, hc, hds⟩ := queryClauses_check h
  obtain ⟨hacc, hres⟩ := Signature.check_accepts hc
  exact ⟨sig, hacc, hres rfl, hds⟩

theorem conclude_outcome {b : Bool} (hfinal : s.status.isFinal = true)
    (h : (r.conclude s.outcome).1 = .ok b) :
    s.status = (if b then .refuted else .saturated) ∧ (r.conclude s.outcome).2 =
      { r with proof := if b then some (r.kb.version, s.outcome) else none } := by
  rw [conclude] at h ⊢
  cases hst : s.status <;> simp [Search.outcome, hst, Status.isFinal] at h hfinal ⊢ <;> simp [← h]

/-- The search that a yes or no comes from. -/
theorem entails_cases {b : Bool} (h : (r.entails q).1 = .ok b) :
    ∃ ds s, r.queryClauses q (.not q.formula.closure) = .ok ds ∧ r.Searched ds s ∧
      s.fault = none ∧ s.status = (if b then .refuted else .saturated) ∧
      (r.entails q).2 = { r with
        last := some s.outcome
        proof := if b then some (r.kb.version, s.outcome) else none } := by
  rw [entails, prove] at h ⊢
  cases hf : q.formula.freeVarsFault with
  | some fault => simp [hf] at h
  | none =>
    cases hq : r.queryClauses q (.not q.formula.closure) with
    | error e => simp [hf, hq] at h
    | ok ds =>
      cases hs : r.search q ds with
      | error e => simp [hf, hq, hs] at h
      | ok p =>
        obtain ⟨o, r'⟩ := p
        obtain ⟨s, hsearch, hfault, hfinal, rfl, rfl⟩ := search_eq_ok hs
        simp only [hf, hq, hs] at h ⊢
        exact ⟨ds, s, rfl, hsearch, hfault, conclude_outcome hfinal h⟩

/-- The formula that is refuted to find values: the question is not true, or its values are an
answer. -/
def valueGoal (f : Formula) : Formula :=
  .or (.not (belowExistentials f)) (answerAtom (answerVars f))

/-- The search that values come from, or that finds none. -/
theorem solve_eq_ok {o : Option (List (String × Term))} (hx : answerVars q.formula ≠ [])
    (h : (r.solve q).1 = .ok o) :
    ∃ ds s, r.queryClauses q (valueGoal q.formula) = .ok ds ∧ r.Searched ds s ∧ s.fault = none ∧
      (o = none ∧ s.status = .saturated ∨
        ∃ f, s.status = .refuted ∧ s.outcome.proofClause = .ok f ∧
          o = some (bindingsOf (answerVars q.formula) f.clause) ∧
          (r.solve q).2 = { r with
            last := some s.outcome
            proof := some (r.kb.version, s.outcome) }) := by
  rw [solve] at h ⊢
  rw [valueGoal]
  cases hf : q.formula.freeVarsFault with
  | some fault => simp [hf] at h
  | none =>
    cases hl : leadingFault q.formula with
    | some i => simp [hf, hl] at h
    | none =>
      cases hv : answerVars q.formula with
      | nil => exact absurd hv hx
      | cons x xs =>
        simp only [hf, hl, hv] at h ⊢
        cases hq : r.queryClauses q
            (.or (.not (belowExistentials q.formula)) (answerAtom (x :: xs))) with
        | error e => simp [hq] at h
        | ok ds =>
          cases hs : r.search q ds with
          | error e => simp [hq, hs] at h
          | ok p =>
            obtain ⟨out, r'⟩ := p
            obtain ⟨s, hsearch, hfault, hfinal, rfl, rfl⟩ := search_eq_ok hs
            simp only [hq, hs] at h ⊢
            refine ⟨ds, s, rfl, hsearch, hfault, ?_⟩
            rcases hc : conclude _ s.outcome with ⟨_ | _ | _, r'⟩ <;> simp only [hc] at h ⊢
            · simp at h
            · obtain ⟨hst, -⟩ := conclude_outcome hfinal (congrArg Prod.fst hc)
              exact Or.inl ⟨(Except.ok.inj h).symm, hst⟩
            · obtain ⟨hst, hr'⟩ := conclude_outcome hfinal (congrArg Prod.fst hc)
              rw [hc] at hr'
              cases ho : s.outcome.proofClause with
              | error e => simp [ho] at h
              | ok f =>
                simp only [ho] at h
                exact Or.inr ⟨f, hst, rfl, (Except.ok.inj h).symm, hr'⟩

/-- If no values are asked for, the question is decided. -/
theorem solve_of_answerVars_nil {o : Option (List (String × Term))}
    (hx : answerVars q.formula = []) (h : (r.solve q).1 = .ok o) :
    (r.entails q).1 = .ok o.isSome ∧ (r.solve q).2 = (r.entails q).2 ∧
      ∀ bs, o = some bs → bs = [] := by
  rw [solve] at h ⊢
  cases hf : q.formula.freeVarsFault with
  | some fault => simp [hf] at h
  | none =>
    cases hl : leadingFault q.formula with
    | some i => simp [hf, hl] at h
    | none =>
      simp only [hf, hl, hx] at h ⊢
      rcases he : r.entails q with ⟨_ | _ | _, r'⟩ <;> simp only [he] at h ⊢
      · cases h
      · cases h
        simp
      · cases h
        simp

/-- The search that values come from, if any are asked for. -/
theorem solve_cases {bs : List (String × Term)} (h : (r.solve q).1 = .ok (some bs)) :
    answerVars q.formula = [] ∧ (r.entails q).1 = .ok true ∧ (r.solve q).2 = (r.entails q).2 ∨
    answerVars q.formula ≠ [] ∧ ∃ ds s,
      r.queryClauses q
        (.or (.not (belowExistentials q.formula)) (answerAtom (answerVars q.formula))) = .ok ds ∧
      r.Searched ds s ∧ s.status = .refuted ∧
      (r.solve q).2 = { r with
        last := some s.outcome
        proof := some (r.kb.version, s.outcome) } := by
  by_cases hx : answerVars q.formula = []
  · obtain ⟨hyes, hr, -⟩ := solve_of_answerVars_nil hx h
    exact Or.inl ⟨hx, hyes, hr⟩
  · obtain ⟨ds, s, hds, hs, -, ⟨hnone, -⟩ | ⟨f, hst, -, -, hr⟩⟩ := solve_eq_ok hx h
    · cases hnone
    · exact Or.inr ⟨hx, ds, s, hds, hs, hst, hr⟩

theorem mem_premises {d : Derived} :
    d ∈ r.premises ds ↔ (∃ f ∈ r.kb.store.clauses, f.derived = d) ∨ d ∈ ds := by
  simp [premises, KnowledgeBase.clauses, List.mem_mergeSort]

/-- The stored formulas bring in no reserved predicates. -/
theorem pred_premises (hr : r.kb.Valid) {P : String → Prop} (hP : ∀ p, isReserved p = false → P p)
    (hds : ∀ d ∈ ds, ∀ l ∈ d.clause.literals, P l.atom.pred) :
    ∀ d ∈ r.premises ds, ∀ l ∈ d.clause.literals, P l.atom.pred := by
  intro d hd l hl
  rcases mem_premises.1 hd with ⟨f, hf, rfl⟩ | hd
  · obtain ⟨e, he, hfe⟩ := hr.origin f hf
    exact hP _ (hr.unreserved e he _ hfe l hl)
  · exact hds d hd l hl

/-- Clauses of formulas have only variables that are never handed out for renaming. -/
theorem sound_seedAll (hr : r.kb.Valid) (ho : r.options.strategy.occursCheck = true)
    (hds : ∀ d ∈ ds, ∀ x ∈ d.clause.vars, IsStandard x) (limits : Limits)
    (selector : Option Selector) (around : Surroundings) :
    Search.Sound (r.premises ds) (({ limits, selector, around, strategy := r.options.strategy } :
      Search).seedAll (r.premises ds)) := by
  have h₀ : Search.Sound (r.premises ds)
      { limits, selector, around, strategy := r.options.strategy } :=
    ⟨rfl, ho, Arena.history_empty _ _, by simp, by simp⟩
  refine h₀.seedAll (fun d hd => hd) fun d hd l hl x hx => ?_
  refine Renamer.avoids_of_isStandard rfl ?_
  have hx' := Clause.mem_vars.2 ⟨l, hl, hx⟩
  rcases mem_premises.1 hd with ⟨f, hf, rfl⟩ | hd
  · obtain ⟨e, he, hfe⟩ := hr.origin f hf
    exact (hr.input e he _ hfe).standard x hx'
  · exact hds d hd x hx'

theorem Searched.sound (hr : r.kb.Valid) (ho : r.options.strategy.occursCheck = true)
    (hds : ∀ d ∈ ds, ∀ x ∈ d.clause.vars, IsStandard x) (h : r.Searched ds s) :
    s.Sound (r.premises ds) := by
  obtain ⟨limits, selector, around, rfl⟩ := h
  exact (sound_seedAll hr ho hds limits selector around).run

theorem Searched.complete (hr : r.kb.Valid) (ho : r.options.strategy.occursCheck = true)
    {factoring : Bool} (hf : r.options.strategy.factoring = factoring)
    (hds : ∀ d ∈ ds, ∀ x ∈ d.clause.vars, IsStandard x) (h : r.Searched ds s) :
    s.Complete factoring (r.premises ds) := by
  obtain ⟨limits, selector, around, rfl⟩ := h
  exact (sound_seedAll hr ho hds limits selector around).complete_run rfl rfl rfl hf

/-! ### Refuted formulas -/

theorem proper_belowExistentials (h : f.Proper) : (belowExistentials f).Proper := by
  fun_induction belowExistentials f with
  | case1 b f ih =>
    cases b with
    | var x => exact ih h
    | other i => exact h.elim
  | case2 => exact h

theorem atoms_belowExistentials (f : Formula) : (belowExistentials f).atoms = f.atoms := by
  fun_induction belowExistentials f with
  | case1 b f ih => exact ih
  | case2 => rfl

/-- The formula that is refuted in order to find values. -/
def negatedGoal (query : Formula) : Formula :=
  match answerVars query with
  | [] => .not query.closure
  | vars => .or (.not (belowExistentials query)) (answerAtom vars)

/-- A formula that is refuted in place of the question has its atoms, and maybe answer atoms. -/
structure Recasts (g f : Formula) : Prop where
  proper : f.Proper → g.Proper
  atoms : ∀ a ∈ g.atoms, a ∈ f.atoms ∨ a.pred = Literal.answerMark ∧ a.symbols = []

theorem recasts_not_closure (f : Formula) : Recasts (.not f.closure) f :=
  ⟨fun h => h.closure, fun _ ha => Or.inl (Formula.atoms_closure f ▸ ha)⟩

theorem symbols_answer (vars : List String) :
    (⟨Literal.answerMark, vars.map .var⟩ : Atom).symbols = [] := by
  induction vars with
  | nil => rfl
  | cons x vars ih => exact ih

theorem recasts_answer (f : Formula) (vars : List String) :
    Recasts (.or (.not (belowExistentials f)) (answerAtom vars)) f := by
  refine ⟨fun h => ⟨proper_belowExistentials h, trivial⟩, fun a ha => ?_⟩
  rcases List.mem_append.1 ha with ha | ha
  · exact Or.inl (atoms_belowExistentials f ▸ ha)
  · obtain rfl := List.mem_singleton.1 ha
    exact Or.inr ⟨rfl, symbols_answer vars⟩

theorem recasts_negatedGoal (f : Formula) : Recasts (negatedGoal f) f := by
  rw [negatedGoal]
  split
  · exact recasts_not_closure f
  · exact recasts_answer f _

theorem recasts_valueGoal (f : Formula) : Recasts (valueGoal f) f := recasts_answer f _

/-- The predicate is not reserved, or it is the answer predicate and the formula asks for it. -/
def Admits (g : Formula) (p : String) : Prop :=
  isReserved p = false ∨ p = Literal.answerMark ∧ ∃ a ∈ g.atoms, a.pred = p

theorem Recasts.known {sig sig' : Signature} (hg : Recasts g f) (hacc : sig.Accepts f sig') :
    ∀ a ∈ g.atoms, ∀ s ∈ a.symbols, sig'.contains s.name = true := by
  intro a ha s hs
  rcases hg.atoms a ha with ha | ⟨-, hnone⟩
  · exact hacc.known a ha s hs
  · simp [hnone] at hs

theorem Recasts.input (hg : Recasts g q.formula) (h : r.queryClauses q g = .ok ds) :
    ∃ sig, ∀ d ∈ ds, d.IsInput sig ∧ ∀ l ∈ d.clause.literals, Admits g l.atom.pred := by
  obtain ⟨sig, hacc, hres, rfl⟩ := queryClauses_eq_ok h
  have hproper := hg.proper hacc.proper
  have hknown := hg.known hacc
  refine ⟨_, fun d hd => ⟨hproper.isInput hknown _ _ _ hd, fun l hl => ?_⟩⟩
  obtain ⟨c, hc, rfl⟩ := List.mem_map.1 hd
  obtain ⟨a, ha, hp⟩ := (hproper.hasClauses hknown).preds c hc l hl
  rcases hg.atoms a ha with hq | ⟨hmark, -⟩
  · exact Or.inl (hp ▸ hres a hq)
  · exact Or.inr ⟨hp.trans hmark, a, ha, hp.symm⟩

theorem negatedGoal_eq (hx : answerVars f ≠ []) : negatedGoal f = valueGoal f := by
  rw [negatedGoal]
  split
  · contradiction
  · rfl

/-- A Skolem symbol that comes in with the clauses of the formula refuted for a question. -/
def CreatesSkolem (r : Reasoner) (q : Question) (g : Formula) (s : Symbol) : Prop :=
  let sig := (r.kb.signature.check false q.arities q.formula).1
  sig.AddsSkolem (g.clauses sig).2 s

/-- A structure for the active clauses and the refuted formula can be changed, at new Skolem symbols
only, into one for everything that the search files. -/
theorem Searched.exists_expansion {D : Type*} [Nonempty D] {M : Structure D} (hr : r.kb.Valid)
    (ho : r.options.strategy.occursCheck = true) (hg : Recasts g q.formula)
    (hds : r.queryClauses q g = .ok ds) (hs : r.Searched ds s)
    (hM : ∀ f ∈ r.kb.clauses, M.Satisfies f.clause) (hMg : M.Models g) :
    ∃ N : Structure D, N.Expands M (r.CreatesSkolem q g) ∧
      ∀ f, s.Files f → N.Satisfies f.clause := by
  obtain ⟨_, hin⟩ := hg.input hds
  have hsound := hs.sound hr ho fun d hd => (hin d hd).1.standard
  obtain ⟨sig, hc, rfl⟩ := queryClauses_check hds
  obtain ⟨hacc, -⟩ := Signature.check_accepts hc
  obtain ⟨N, hN, hnew⟩ := (hg.proper hacc.proper).exists_expansion (hg.known hacc) hMg
  refine ⟨N, hN.mono fun s hs => ?_, fun f hf => ?_⟩
  · rw [CreatesSkolem, hc]
    exact hs
  · refine hsound.history.induction (P := fun d => N.Satisfies d.clause) (fun d hd => ?_)
      (fun ps d hps hd => hd.sound hps) hf
    rcases mem_premises.1 hd with ⟨f, hf, rfl⟩ | hd
    · -- clauses of the knowledge base have none of the new symbols
      have hsat := hM f (List.mem_mergeSort.2 hf)
      refine hsat.of_expands hN fun s hs => Signature.not_addsSkolem ?_
      obtain ⟨e, he, hfe⟩ := hr.origin f hf
      exact hacc.grows.contains ((hr.input e he _ hfe).known s hs)
    · obtain ⟨c, hc, rfl⟩ := List.mem_map.1 hd
      exact hnew c hc

end Reasoner

end Elenchus

import Elenchus.Proofs.Questions

/-! What values mean: they answer the question, or the knowledge base contradicts itself. -/

namespace Elenchus

universe u

/-! ### The answer predicate -/

section

variable {D : Type u} {M N : Structure D} {R : List D → Prop} {v : String → D}

/-- The structure with another meaning for the answer predicate. -/
def Structure.withAnswer (M : Structure D) (R : List D → Prop) : Structure D where
  fn := M.fn
  rel p ds := if p = Literal.answerMark then R ds else M.rel p ds

theorem Atom.holds_withAnswer {a : Atom} (ha : isReserved a.pred = false) :
    a.Holds (M.withAnswer R) v ↔ a.Holds M v := by
  have hne : a.pred ≠ Literal.answerMark := by
    intro he
    rw [he] at ha
    exact absurd ha (by decide)
  simp only [Atom.Holds, Structure.withAnswer, if_neg hne]

theorem Formula.holds_withAnswer {f : Formula} (hf : ∀ a ∈ f.atoms, isReserved a.pred = false) :
    f.Holds (M.withAnswer R) v ↔ f.Holds M v :=
  holds_congr_atoms fun a ha _ => Atom.holds_withAnswer (hf a ha)

theorem Structure.Satisfies.withAnswer {c : Clause} (h : M.Satisfies c)
    (hc : ∀ l ∈ c.literals, isReserved l.atom.pred = false) : (M.withAnswer R).Satisfies c := by
  intro v
  obtain ⟨l, hl, hv⟩ := h v
  exact ⟨l, hl, (iff_congr Iff.rfl (Atom.holds_withAnswer (hc l hl))).2 hv⟩

/-- New functions do not change the meaning of the answer predicate. -/
theorem Literal.holds_answer {l : Literal} {new : Symbol → Prop}
    (hN : N.Expands (M.withAnswer R) new) (hl : l.atom.pred = Literal.answerMark) :
    l.Holds N v ↔ (l.positive = true ↔ R (l.atom.args.map (Term.eval N.fn v))) := by
  simp only [Literal.Holds, Atom.Holds, hN.rel_eq, Structure.withAnswer, if_pos hl]

end

namespace Reasoner

variable {r : Reasoner} {q : Question} {ds : List Derived} {s : Search} {f : Formula}
  {xs : List String} {ts : List Term}

/-! ### Variables that values are asked for -/

theorem nodup_answerVars (f : Formula) : (answerVars f).Nodup := nodup_eraseDups _

theorem mem_answerVars {x : String} : x ∈ answerVars f ↔ x ∈ f.freeVars ∨ x ∈ leadingVars f := by
  simp [answerVars, List.mem_eraseDups, Formula.mem_freeVarsInOrder]

theorem freeVars_belowExistentials (f : Formula) :
    ∀ x ∈ (belowExistentials f).freeVars, x ∈ answerVars f := by
  intro x hx
  rw [mem_answerVars]
  fun_induction belowExistentials f with
  | case1 b f ih =>
    cases b with
    | other i => simpa [Formula.freeVars, leadingVars] using ih hx
    | var y =>
      simp only [Formula.freeVars, leadingVars, List.mem_filter, bne_iff_ne, List.mem_cons]
      by_cases hxy : x = y
      · exact Or.inr (Or.inl hxy)
      · exact (ih hx).imp (fun h => ⟨h, hxy⟩) Or.inr
  | case2 => exact Or.inl hx

/-- If nothing is asked for, no existential quantifier leads. -/
theorem belowExistentials_eq_self (hf : f.Proper) (hx : answerVars f = []) :
    belowExistentials f = f := by
  have hnone : ∀ x, x ∉ leadingVars f := fun x h => by
    have hmem : x ∈ answerVars f := mem_answerVars.2 (Or.inr h)
    simp [hx] at hmem
  cases f with
  | ex b f =>
    cases b with
    | var x => exact absurd (List.mem_cons_self ..) (hnone x)
    | other i => exact hf.elim
  | _ => rfl

/-- The terms can be read off the substitution of terms for variables. -/
theorem map_value_zip (hn : xs.Nodup) (hl : ts.length = xs.length) :
    xs.map (Subst.ofList (xs.zip ts)).value = ts := by
  refine List.ext_getElem (by simp [hl]) fun i hi hi' => ?_
  have hx : i < xs.length := by simpa using hi
  have hkeys : ((xs.zip ts).map Prod.fst).Nodup := by
    rwa [List.map_fst_zip (Nat.le_of_eq hl.symm)]
  have hmem : (xs[i], ts[i]) ∈ xs.zip ts := by
    rw [List.mem_iff_getElem]
    exact ⟨i, by simp [hl, hx], by simp⟩
  rw [List.getElem_map]
  exact Renamer.value_ofList_of_mem hkeys hmem

/-! ### No values -/

theorem isAnswer_of_pred {l : Literal} (h : l.atom.pred = Literal.answerMark) :
    l.isAnswer = true := by
  rw [Literal.isAnswer, h]
  decide

/-- If all literals of a clause have the same instance, and that is an answer, then the clause is a
refutation as soon as no two of its literals have the same instance. -/
theorem isRefutation_of_inst {c : Clause} {θ : String → Term} {a : Atom}
    (ha : a.pred = Literal.answerMark) (hθ : ∀ l ∈ c.literals, l.inst θ = Literal.pos a)
    (hinj : ∀ l ∈ c.literals, ∀ m ∈ c.literals, l.inst θ = m.inst θ → l = m) :
    Search.isRefutation c = true := by
  rw [Search.isRefutation_iff]
  rcases hlits : c.literals with _ | ⟨l, ls⟩
  · exact Or.inl rfl
  · have hl : l ∈ c.literals := by simp [hlits]
    have hls : ls = [] := by
      rw [List.eq_nil_iff_forall_not_mem]
      intro m hm
      have hmem : m ∈ c.literals := by simp [hlits, hm]
      have hnodup := c.nodup
      rw [hlits, List.nodup_cons, hinj l hl m hmem ((hθ l hl).trans (hθ m hmem).symm)] at hnodup
      exact hnodup.1 hm
    have hpred : l.atom.pred = (l.inst θ).atom.pred := rfl
    rw [hθ l hl] at hpred
    exact Or.inr ⟨l, by rw [hls], isAnswer_of_pred (hpred.trans ha)⟩

/-- Where no clause is a refutation, nothing says of one answer that it is true. Two answers in a
clause that both have it as an instance would have been merged. -/
theorem not_blocked_answer {U : Clause → Prop} (hU : ∀ c, U c → Search.isRefutation c = false)
    (hf : ∀ c, U c → Clause.FactorsIn U c) {a : Atom} (ha : a.pred = Literal.answerMark) :
    ¬ Clause.Blocked U {Literal.pos a} := by
  have hpair : ¬ ∃ l ∈ ({Literal.pos a} : Set Literal), l.negate = Literal.pos a := by
    rintro ⟨l, rfl, hn⟩
    exact Literal.negate_ne hn
  rintro (hpos | ⟨c, hc, θ, hθ⟩)
  · exact hpair hpos
  · rcases Clause.exists_injective_instance hf hc hθ with hpos | ⟨d, hd, η, hη, hinj⟩
    · exact hpair hpos
    · exact Bool.eq_false_iff.1 (hU d hd) (isRefutation_of_inst ha hη hinj)

/-- In a structure of terms, the question is not true of terms that are no answer. -/
theorem not_models_inst {M : Structure Term} (hfn : M.fn = Term.app) (hM : M.Models (valueGoal f))
    (hts : ts.length = (answerVars f).length)
    (hno : ¬ (Literal.pos ⟨Literal.answerMark, ts⟩).Holds M .var) :
    ¬ M.Models ((belowExistentials f).inst (Subst.ofList ((answerVars f).zip ts)).value) := by
  intro hmodels
  have hself : ∀ t : Term, t.eval M.fn .var = t := fun t => by
    rw [hfn]
    exact Term.inst_var_eq_self t
  have hbody := Formula.holds_inst.1 (hmodels .var)
  simp only [hself] at hbody
  rcases hM (Subst.ofList ((answerVars f).zip ts)).value with hnot | hyes
  · exact hnot hbody
  · apply hno
    have hargs : ts.map (Term.eval M.fn .var) = ts :=
      (List.map_congr_left fun t _ => hself t).trans (List.map_id' ts)
    have hvalues := map_value_zip (nodup_answerVars f) hts
    simp only [answerAtom, Formula.Holds, Atom.Holds, List.map_map] at hyes
    simp only [Literal.Holds, Literal.pos, Atom.Holds, hargs, true_iff]
    rw [← hvalues]
    exact hyes

/-- Completeness for definite answers. If values are asked for and there are none, then for any
terms in place of the variables there is a structure for the active clauses in which the question is
not true. -/
theorem solve_complete (hb : r.kb.Built) (ho : r.options.strategy.occursCheck = true)
    (hf : r.options.strategy.factoring = true) (hx : answerVars q.formula ≠ [])
    (h : (r.solve q).1 = .ok none) (ts : List Term)
    (hts : ts.length = (answerVars q.formula).length) :
    ∃ (D : Type) (_ : Nonempty D) (M : Structure D),
      (∀ f ∈ r.kb.clauses, M.Satisfies f.clause) ∧
        ¬ M.Models ((belowExistentials q.formula).inst
          (Subst.ofList ((answerVars q.formula).zip ts)).value) := by
  obtain ⟨ds, s, hds, hs, hfault, ⟨-, hst⟩ | ⟨f, -, -, hsome, -⟩⟩ := solve_eq_ok hx h
  swap
  · cases hsome
  have hrecasts := recasts_valueGoal q.formula
  obtain ⟨_, hin⟩ := hrecasts.input hds
  have hcomplete := hs.complete hb.valid ho hf fun d hd => (hin d hd).1.standard
  obtain ⟨-, -, hfactors⟩ := hcomplete.closed_of_saturated hst hfault
  -- nothing usable says that the terms are an answer
  have hfree : ¬ Clause.Blocked s.Usable {Literal.pos ⟨Literal.answerMark, ts⟩} :=
    not_blocked_answer (fun _ => hcomplete.isRefutation_of_usable) (hfactors rfl) rfl
  obtain ⟨M, hfn, hM, hfalse⟩ := hcomplete.exists_structure_of_not_blocked hst hfault hfree
  obtain ⟨sig, hacc, -, heq⟩ := queryClauses_eq_ok hds
  have hgoal : M.Models (valueGoal q.formula) := by
    refine (hrecasts.proper hacc.proper).models_of_clauses (hrecasts.known hacc) fun c hc => ?_
    exact hM _ (mem_premises.2 (Or.inr (heq ▸ List.mem_map_of_mem hc)))
  have hnonempty : Nonempty Term := ⟨.var ""⟩
  refine ⟨Term, hnonempty, M, fun f hf => ?_, not_models_inst hfn hgoal hts (hfalse _ rfl)⟩
  exact hM _ (mem_premises.2 (Or.inl ⟨f, List.mem_mergeSort.1 hf, rfl⟩))

/-- Something below itself. -/
def belowItself : Formula := .atomic ⟨"less", [.var "y", .var "y"]⟩

theorem solve_complete_belowItself :
    ∃ kb, KnowledgeBase.ofAxioms? [Signature.unbounded] = some kb ∧
      (solve { kb } { formula := belowItself }).1 = .ok none ∧
      ∀ t : Term, ∃ (D : Type) (_ : Nonempty D) (M : Structure D),
        (∀ f ∈ kb.clauses, M.Satisfies f.clause) ∧ ¬ M.Models (.atomic ⟨"less", [t, t]⟩) := by
  have heval : ((KnowledgeBase.ofAxioms? [Signature.unbounded]).map fun kb =>
      (solve { kb } { formula := belowItself }).1.toOption) = some (some none) := by
    decide +kernel
  obtain ⟨kb, hkb, hnone⟩ := Option.map_eq_some_iff.1 heval
  have hnone := eq_ok_of_toOption hnone
  obtain ⟨hb, -⟩ := KnowledgeBase.ofAxioms?_eq_some hkb
  refine ⟨kb, hkb, hnone, fun t => ?_⟩
  have hvars : answerVars belowItself = ["y"] := by decide
  have hinst : (belowExistentials belowItself).inst
      (Subst.ofList ((answerVars belowItself).zip [t])).value = .atomic ⟨"less", [t, t]⟩ := by
    rw [hvars]
    have hy : (Subst.ofList [("y", t)]).value "y" = t :=
      Renamer.value_ofList_of_mem (by simp) (by simp)
    simp [belowItself, belowExistentials, Formula.inst, Atom.inst, hy]
  exact hinst ▸ solve_complete (r := { kb }) (q := { formula := belowItself }) hb rfl rfl
    (by simp [hvars]) hnone [t] (by simp [hvars])

/-! ### Values -/

/-- Answers have as many arguments as there are variables. -/
theorem Searched.predicate_answer (hr : r.kb.Valid) (ho : r.options.strategy.occursCheck = true)
    (hds : r.queryClauses q (valueGoal q.formula) = .ok ds) (hs : r.Searched ds s)
    {f : Filed} (hf : s.Files f) {l : Literal} (hl : l ∈ f.clause.literals)
    (ha : l.isAnswer = true) :
    l.atom.predicate = ⟨Literal.answerMark, (answerVars q.formula).length⟩ := by
  have hrecasts := recasts_valueGoal q.formula
  obtain ⟨_, hin⟩ := hrecasts.input hds
  have hsound := hs.sound hr ho fun d hd => (hin d hd).1.standard
  obtain ⟨sig, hacc, hres, heq⟩ := queryClauses_eq_ok hds
  have hclauses := (hrecasts.proper hacc.proper).hasClauses (hrecasts.known hacc)
  let P : Symbol → Prop := fun p => isReserved p.name = false ∨
    p = ⟨Literal.answerMark, (answerVars q.formula).length⟩
  have hpremises : ∀ d ∈ r.premises ds, ∀ l ∈ d.clause.literals, P l.atom.predicate := by
    intro d hd l hl
    rcases mem_premises.1 hd with ⟨g, hg, rfl⟩ | hd
    · obtain ⟨e, he, hge⟩ := hr.origin g hg
      exact Or.inl (hr.unreserved e he _ hge l hl)
    · rw [heq] at hd
      obtain ⟨c, hc, rfl⟩ := List.mem_map.1 hd
      obtain ⟨a, ha, hp⟩ := hclauses.predicates c hc l hl
      rw [hp]
      rcases List.mem_append.1 ha with ha | ha
      · exact Or.inl (hres a (atoms_belowExistentials q.formula ▸ ha))
      · right
        rw [List.mem_singleton.1 ha]
        simp [Atom.predicate]
  refine (hsound.predicate hpremises hf l hl).resolve_left fun hno => ?_
  exact absurd ((isReserved_of_isAnswer ha).symm.trans hno) (by decide)

section

variable {D : Type u} {M : Structure D} {R : List D → Prop}

/-- The formula that is refuted is true if the answer predicate is true of all values for which the
question is. -/
theorem models_valueGoal (hres : ∀ a ∈ f.atoms, isReserved a.pred = false)
    (hR : ∀ v, (belowExistentials f).Holds M v → R ((answerVars f).map v)) :
    (M.withAnswer R).Models (valueGoal f) := by
  intro v
  by_cases hv : (belowExistentials f).Holds M v
  · right
    have hargs : ((answerVars f).map Term.var).map (Term.eval M.fn v) = (answerVars f).map v := by
      simp [List.map_map, Function.comp_def]
    simp only [answerAtom, Formula.Holds, Atom.Holds, Structure.withAnswer, hargs, if_pos]
    exact hR v hv
  · left
    intro hv'
    rw [Formula.holds_withAnswer (by rwa [atoms_belowExistentials])] at hv'
    exact hv hv'

variable [Nonempty D] (hr : r.kb.Valid) (ho : r.options.strategy.occursCheck = true)
  (hds : r.queryClauses q (valueGoal q.formula) = .ok ds) (hs : r.Searched ds s)
  (hM : ∀ f ∈ r.kb.clauses, M.Satisfies f.clause)
include hr ho hds hs hM

/-- Whatever the answer predicate is taken for, if the negated question is true then so is
everything that the search files, with suitable functions for new Skolem symbols. -/
theorem Searched.exists_withAnswer
    (hR : ∀ v, (belowExistentials q.formula).Holds M v → R ((answerVars q.formula).map v)) :
    ∃ N : Structure D,
      N.Expands (M.withAnswer R) (r.CreatesSkolem q (valueGoal q.formula)) ∧
        ∀ f, s.Files f → N.Satisfies f.clause := by
  obtain ⟨sig, -, hres, -⟩ := queryClauses_eq_ok hds
  refine hs.exists_expansion hr ho (recasts_valueGoal _) hds (fun f hf => ?_)
    (models_valueGoal hres hR)
  obtain ⟨e, he, hfe⟩ := hr.origin f (List.mem_mergeSort.1 hf)
  exact (hM f hf).withAnswer (hr.unreserved e he _ hfe)

/-- Every filed clause has a positive answer, or a literal that is no answer. -/
theorem Searched.exists_literal {f : Filed} (hf : s.Files f) :
    ∃ l ∈ f.clause.literals, l.atom.pred = Literal.answerMark → l.positive = true := by
  -- take every answer for true
  obtain ⟨N, hN, hall⟩ := hs.exists_withAnswer hr ho hds hM (R := fun _ => True) fun _ _ => trivial
  obtain ⟨l, hl, hv⟩ := hall f hf fun _ => Classical.arbitrary D
  refine ⟨l, hl, fun hp => ?_⟩
  rw [Literal.holds_answer hN hp] at hv
  exact hv.2 trivial

/-- A clause of one answer literal gives values for which the question is true. -/
theorem Searched.answer_correct {f : Filed} (hf : s.Files f) {l : Literal}
    (hl : f.clause.literals = [l])
    (hp : l.atom.predicate = ⟨Literal.answerMark, (answerVars q.formula).length⟩) :
    (∃ w, (belowExistentials q.formula).Holds M w) ∧
      ((∀ t ∈ l.atom.args, ∀ p ∈ t.symbols, ¬ r.CreatesSkolem q (valueGoal q.formula) p) →
        ∀ v, (belowExistentials q.formula).Holds M fun x =>
          ((Subst.ofList ((answerVars q.formula).zip l.atom.args)).value x).eval M.fn v) := by
  obtain ⟨hmark, hlen⟩ := Symbol.mk.inj hp
  have hpositive : l.positive = true := by
    obtain ⟨k, hk, hpos⟩ := hs.exists_literal hr ho hds hM hf
    rw [hl, List.mem_singleton] at hk
    exact hk ▸ hpos (hk ▸ hmark)
  -- take the answer predicate for the question itself
  let d : D := Classical.arbitrary D
  have hR : ∀ v, (belowExistentials q.formula).Holds M v →
      (belowExistentials q.formula).Holds M
        (assign (answerVars q.formula) ((answerVars q.formula).map v) d) := by
    intro v hv
    refine (Formula.holds_congr fun x hx => ?_).1 hv
    exact (assign_map d (freeVars_belowExistentials q.formula x hx)).symm
  obtain ⟨N, hN, hall⟩ := hs.exists_withAnswer hr ho hds hM
    (R := fun ds => (belowExistentials q.formula).Holds M (assign (answerVars q.formula) ds d)) hR
  have hanswer : ∀ v, (belowExistentials q.formula).Holds M
      (assign (answerVars q.formula) (l.atom.args.map (Term.eval N.fn v)) d) := by
    intro v
    obtain ⟨k, hk, hv⟩ := hall f hf v
    rw [hl, List.mem_singleton] at hk
    rw [hk, Literal.holds_answer hN hmark] at hv
    exact hv.1 hpositive
  refine ⟨⟨_, hanswer fun _ => d⟩, fun hold v => ?_⟩
  have hargs : l.atom.args.map (Term.eval N.fn v) = l.atom.args.map (Term.eval M.fn v) :=
    List.map_congr_left fun t ht => Term.eval_expands hN (hold t ht)
  have hv := hanswer v
  rw [hargs, ← map_value_zip (nodup_answerVars q.formula) hlen, List.map_map] at hv
  refine (Formula.holds_congr fun x hx => ?_).1 hv
  exact assign_map d (freeVars_belowExistentials q.formula x hx)

end

/-- If no values are asked for, the question is true in every structure for the active clauses. -/
theorem entails_models {D : Type u} [Nonempty D] {M : Structure D} (hr : r.kb.Valid)
    (ho : r.options.strategy.occursCheck = true) (h : (r.entails q).1 = .ok true)
    (hM : ∀ f ∈ r.kb.clauses, M.Satisfies f.clause) : M.Models q.formula := by
  by_contra hq
  rw [← Formula.models_not_closure] at hq
  obtain ⟨ds, s, hds, hs, -, hst, -⟩ := entails_cases h
  have hrecasts := recasts_not_closure q.formula
  obtain ⟨_, hin⟩ := hrecasts.input hds
  obtain ⟨-, -, hres, -⟩ := queryClauses_eq_ok hds
  have hsound := hs.sound hr ho fun d hd => (hin d hd).1.standard
  -- there is no answer atom, so the refutation is the empty clause
  have hpreds := pred_premises hr (P := fun p => isReserved p = false) (fun _ hp => hp)
    fun d (hd : d ∈ ds) l hl => by
      rcases (hin d hd).2 l hl with hno | ⟨-, a, ha, hp⟩
      · exact hno
      · rw [← hp]
        exact hres a (Formula.atoms_closure q.formula ▸ ha)
  obtain ⟨f, -, hf, hempty⟩ := hsound.exists_empty hst hpreds
  obtain ⟨N, -, hall⟩ := hs.exists_expansion hr ho hrecasts hds hM hq
  exact (hall f hf).ne_nil hempty

/-- The clause that values are read off, which is empty or one answer. -/
theorem solve_eq_some (hr : r.kb.Valid) (ho : r.options.strategy.occursCheck = true)
    (hx : answerVars q.formula ≠ []) {bs : List (String × Term)}
    (h : (r.solve q).1 = .ok (some bs)) :
    ∃ ds s f, r.queryClauses q (valueGoal q.formula) = .ok ds ∧ r.Searched ds s ∧ s.Files f ∧
      (∀ o g, (r.solve q).2.last = some o → o.proofClause = .ok g → g = f) ∧
      (f.clause.literals = [] ∧ bs = (answerVars q.formula).map (fun x => (x, .var x)) ∨
        ∃ l, f.clause.literals = [l] ∧ bs = (answerVars q.formula).zip l.atom.args ∧
          l.atom.predicate = ⟨Literal.answerMark, (answerVars q.formula).length⟩) := by
  obtain ⟨ds, s, hds, hs, -, ⟨hno, -⟩ | ⟨f, -, hf, hbs, hr'⟩⟩ := solve_eq_ok hx h
  · cases hno
  obtain rfl := Option.some.inj hbs
  obtain ⟨-, hfile, -⟩ := Search.proofClause_eq_ok hf
  obtain ⟨_, hin⟩ := (recasts_valueGoal q.formula).input hds
  have hsound := hs.sound hr ho fun d hd => (hin d hd).1.standard
  refine ⟨ds, s, f, hds, hs, hfile, fun o g hlast hg => ?_, ?_⟩
  · rw [hr'] at hlast
    obtain rfl := Option.some.inj hlast
    exact Except.ok.inj (hg.symm.trans hf)
  · rcases Search.isRefutation_iff.1 (hsound.isRefutation_proofClause hf) with he | ⟨l, hl, hans⟩
    · exact Or.inl ⟨he, by rw [bindingsOf, he]⟩
    · refine Or.inr ⟨l, hl, by rw [bindingsOf, hl], ?_⟩
      exact hs.predicate_answer hr ho hds hfile (by simp [hl]) hans

/-- Soundness of values. Every variable gets a term. In every structure for the active clauses some
values make the question true, and so do the values of the terms unless Skolem symbols of the
question occur in them. If the search for values ends in the empty clause, then every variable
stands for itself and no structure makes the active clauses true. -/
theorem solve_sound (hb : r.kb.Built) (ho : r.options.strategy.occursCheck = true)
    {bs : List (String × Term)} (h : (r.solve q).1 = .ok (some bs)) :
    bs.map Prod.fst = answerVars q.formula ∧
    (∀ {D : Type u} [Nonempty D] (M : Structure D), (∀ f ∈ r.kb.clauses, M.Satisfies f.clause) →
      M.Models ((belowExistentials q.formula).existsOver (answerVars q.formula)) ∧
      ((∀ b ∈ bs, ∀ p ∈ b.2.symbols, ¬ r.CreatesSkolem q (negatedGoal q.formula) p) →
        ∀ v, (belowExistentials q.formula).Holds M fun x =>
          ((Subst.ofList bs).value x).eval M.fn v)) ∧
    (answerVars q.formula ≠ [] → ∀ o f, (r.solve q).2.last = some o → o.proofClause = .ok f →
      f.clause.isEmpty = true →
        bs = (answerVars q.formula).map (fun x => (x, .var x)) ∧
        ∀ {D : Type u} [Nonempty D] (M : Structure D),
          ¬ ∀ f ∈ r.kb.clauses, M.Satisfies f.clause) := by
  by_cases hx : answerVars q.formula = []
  · obtain ⟨hyes, -, hbs⟩ := solve_of_answerVars_nil hx h
    obtain rfl := hbs bs rfl
    refine ⟨by simp [hx], fun M hM => ?_, fun hne => absurd hx hne⟩
    obtain ⟨ds, s, hds, -⟩ := entails_cases hyes
    obtain ⟨sig, hacc, -, -⟩ := queryClauses_eq_ok hds
    have hmodels := entails_models hb.valid ho hyes hM
    rw [belowExistentials_eq_self hacc.proper hx, hx]
    exact ⟨hmodels, fun _ v => hmodels _⟩
  obtain ⟨ds, s, f, hds, hs, hf, hlast, hclause⟩ := solve_eq_some hb.valid ho hx h
  rw [negatedGoal_eq hx]
  rcases hclause with ⟨hempty, rfl⟩ | ⟨l, hl, rfl, hp⟩
  · have hunsat : ∀ {D : Type u} [Nonempty D] (M : Structure D),
        ¬ ∀ f ∈ r.kb.clauses, M.Satisfies f.clause := by
      intro D _ M hM
      obtain ⟨l, hmem, -⟩ := hs.exists_literal hb.valid ho hds hM hf
      rw [hempty] at hmem
      cases hmem
    refine ⟨?_, fun M hM => absurd hM (hunsat M), fun _ o g _ _ _ => ⟨rfl, hunsat⟩⟩
    rw [List.map_map]
    exact List.map_id' _
  · have hlen : l.atom.args.length = (answerVars q.formula).length := congrArg Symbol.arity hp
    refine ⟨List.map_fst_zip (Nat.le_of_eq hlen.symm), fun M hM => ?_, fun _ o g ho hg he => ?_⟩
    · obtain ⟨⟨w, hw⟩, hvalues⟩ := hs.answer_correct hb.valid ho hds hM hf hl hp
      refine ⟨Formula.models_existsOver (freeVars_belowExistentials q.formula) hw, fun hold => ?_⟩
      refine hvalues fun t ht p hps => ?_
      have hsnd : t ∈ ((answerVars q.formula).zip l.atom.args).map Prod.snd := by
        rwa [List.map_snd_zip (Nat.le_of_eq hlen)]
      obtain ⟨b, hb, rfl⟩ := List.mem_map.1 hsnd
      exact hold b hb p hps
    · rw [hlast o g ho hg, Clause.isEmpty, hl] at he
      cases he

/-- Something greater. -/
def greater : Formula := .ex (.var "y") (.atomic ⟨"less", [.var "x", .var "y"]⟩)

/-- The natural numbers in their order; functions give a number greater than the arguments. -/
def successors : Structure Nat := ⟨fun _ ds => ds.sum + 1, Signature.naturals.rel⟩

theorem solve_sound_greater :
    ∃ kb bs, KnowledgeBase.ofAxioms? [Signature.unbounded] = some kb ∧
      bs = [("x", .var "x_1"), ("y", .app "sk1" [.var "x_1"])] ∧
      (solve { kb } { formula := greater }).1 = .ok (some bs) ∧
      (∀ f ∈ kb.clauses, successors.Satisfies f.clause) ∧
      ∀ v, (belowExistentials greater).Holds successors fun x =>
        ((Subst.ofList bs).value x).eval successors.fn v := by
  have heval : ((KnowledgeBase.ofAxioms? [Signature.unbounded]).map fun kb =>
      ((solve { kb } { formula := greater }).1.toOption, kb.clauses.map Filed.clause,
        (kb.signature.check false [] greater).1.contains "sk1")) =
      some (some (some [("x", .var "x_1"), ("y", .app "sk1" [.var "x_1"])]),
        [.ofList [.pos ⟨"less", [.var "x1", .app "sk1" [.var "x1"]]⟩]], true) := by
    decide +kernel
  obtain ⟨kb, hkb, h⟩ := Option.map_eq_some_iff.1 heval
  obtain ⟨hbs, h⟩ := Prod.mk.inj h
  obtain ⟨hclauses, hknown⟩ := Prod.mk.inj h
  have hbs := eq_ok_of_toOption hbs
  obtain ⟨hb, -⟩ := KnowledgeBase.ofAxioms?_eq_some hkb
  have hM : ∀ f ∈ kb.clauses, successors.Satisfies f.clause := by
    intro f hf v
    have hmem := List.mem_map_of_mem (f := Filed.clause) hf
    rw [hclauses, List.mem_singleton] at hmem
    rw [hmem]
    refine ⟨_, Clause.mem_ofList.2 (List.mem_singleton_self _), ?_⟩
    simp [Literal.Holds, Literal.pos, Atom.Holds, successors, Signature.naturals, Term.eval,
      Term.evalList]
  refine ⟨kb, _, hkb, rfl, hbs, hM, ?_⟩
  obtain ⟨-, hsound, -⟩ := solve_sound (r := { kb }) (q := { formula := greater }) hb rfl hbs
  refine (hsound successors hM).2 fun b hmem p hp => Signature.not_addsSkolem ?_
  -- the only symbol of the terms is known already
  have hname : p.name = "sk1" := by
    simp only [List.mem_cons, List.not_mem_nil, or_false] at hmem
    rcases hmem with rfl | rfl
    · simp [Term.symbols] at hp
    · simp only [Term.symbols, Term.symbolsList, List.append_nil, List.mem_cons,
        List.not_mem_nil, or_false] at hp
      rw [hp]
  rw [hname]
  exact hknown

end Reasoner

end Elenchus

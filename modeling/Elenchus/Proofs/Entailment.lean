import Elenchus.Proofs.Questions

/-!
What verdicts mean: yes that the question follows from the stored formulas, no that it does not.
-/

namespace Elenchus.Reasoner

universe u

variable {r : Reasoner} {q : Question}

/-- Soundness. If the question is answered with yes, it is true in every structure with a non-empty
domain in which all stored formulas are true; free variables are read universally. -/
theorem entails_sound (hb : r.kb.Built) (ho : r.options.strategy.occursCheck = true)
    (h : (r.entails q).1 = .ok true) {D : Type u} [Nonempty D] (M : Structure D)
    (hM : ∀ e ∈ r.kb.entries, M.Models e.formula) : M.Models q.formula := by
  by_contra hq
  rw [← Formula.models_not_closure] at hq
  obtain ⟨ds, s, hds, hsearch, _, hst, _⟩ := entails_cases h
  obtain ⟨sig, hacc, hres, heq⟩ := queryClauses_eq_ok hds
  have hneg := hacc.not_closure
  have hclauses := hneg.proper.hasClauses hneg.known
  have hv := hb.valid
  have hsound := hsearch.sound hv ho fun d hd =>
    (hneg.proper.isInput hneg.known _ _ _ (heq ▸ hd)).standard
  -- no premise has a reserved predicate, so the refutation is the empty clause
  have hpreds := pred_premises hv (P := fun p => isReserved p = false) (fun _ hp => hp)
    fun d (hd : d ∈ ds) l hl => by
      rw [heq] at hd
      obtain ⟨c, hc, rfl⟩ := List.mem_map.1 hd
      obtain ⟨a, ha, hp⟩ := hclauses.preds c hc l hl
      rw [hp]
      exact hres a (Formula.atoms_closure q.formula ▸ ha)
  obtain ⟨f, -, hfile, hempty⟩ := hsound.exists_empty hst hpreds
  -- a structure for the formulas and the negated question makes all premises true
  obtain ⟨N, hN, hsat⟩ := hb.exists_expansion hM
  obtain ⟨N', -, hold, hnew⟩ := hv.extend hN hsat hneg hq
  refine hsound.unsatisfiable hfile hempty (fun _ => Classical.arbitrary D) N' fun d hd => ?_
  rcases mem_premises.1 hd with ⟨f, hf, rfl⟩ | hd
  · obtain ⟨e, he, hfe⟩ := hv.origin f hf
    exact hold e he _ hfe
  · rw [heq] at hd
    obtain ⟨c, hc, rfl⟩ := List.mem_map.1 hd
    exact hnew c hc

/-- Two steps up from everything. -/
def twoSteps : Formula :=
  .all (.var "x") (.ex (.var "y") (.ex (.var "z")
    (.and (.atomic ⟨"less", [.var "x", .var "y"]⟩) (.atomic ⟨"less", [.var "y", .var "z"]⟩))))

theorem entails_sound_twoSteps :
    ∃ kb, KnowledgeBase.ofAxioms? [Signature.unbounded] = some kb ∧
      (entails { kb } { formula := twoSteps }).1 = .ok true ∧
      Signature.naturals.Models twoSteps := by
  have heval : ((KnowledgeBase.ofAxioms? [Signature.unbounded]).map fun kb =>
      (entails { kb } { formula := twoSteps }).1.toOption) = some (some true) := by
    decide +kernel
  obtain ⟨kb, hkb, hyes⟩ := Option.map_eq_some_iff.1 heval
  have hyes := eq_ok_of_toOption hyes
  obtain ⟨hb, hfs⟩ := KnowledgeBase.ofAxioms?_eq_some hkb
  refine ⟨kb, hkb, hyes, entails_sound hb rfl hyes Signature.naturals fun e he => ?_⟩
  have hf : e.formula = Signature.unbounded := by
    have := List.mem_map_of_mem (f := KnowledgeEntry.formula) he
    simpa [hfs] using this
  rw [hf]
  intro v n
  exact ⟨n + 1, by simp [Formula.Holds, Atom.Holds, Signature.naturals]⟩

/-- No means that the question does not follow, provided that the search uses factors: there is a
structure in which all stored formulas are true and the question is not. -/
theorem entails_complete (hb : r.kb.Built) (ho : r.options.strategy.occursCheck = true)
    (hf : r.options.strategy.factoring = true) (h : (r.entails q).1 = .ok false) :
    ∃ (D : Type) (_ : Nonempty D) (M : Structure D),
      (∀ e ∈ r.kb.entries, M.Models e.formula) ∧ ¬ M.Models q.formula := by
  obtain ⟨ds, s, hds, hsearch, hfault, hst, _⟩ := entails_cases h
  obtain ⟨sig, hacc, -, heq⟩ := queryClauses_eq_ok hds
  have hneg := hacc.not_closure
  have hv := hb.valid
  have hcomplete := hsearch.complete hv ho hf fun d hd =>
    (hneg.proper.isInput hneg.known _ _ _ (heq ▸ hd)).standard
  obtain ⟨M, hM⟩ := hcomplete.exists_structure hst hfault
  have hnonempty : Nonempty Term := ⟨.var ""⟩
  refine ⟨Term, hnonempty, M, fun e he => ?_, ?_⟩
  · exact hv.models (fun f hf => hM _ (mem_premises.2 (Or.inl ⟨f, hf, rfl⟩))) he
  · rw [← Formula.models_not_closure]
    refine hneg.proper.models_of_clauses hneg.known fun c hc => ?_
    exact hM _ (mem_premises.2 (Or.inr (heq ▸ List.mem_map_of_mem hc)))

/-- Two things below each other. -/
def twoCycle : Formula :=
  .ex (.var "x") (.ex (.var "y")
    (.and (.atomic ⟨"less", [.var "x", .var "y"]⟩) (.atomic ⟨"less", [.var "y", .var "x"]⟩)))

theorem entails_complete_twoCycle :
    ∃ kb, KnowledgeBase.ofAxioms? [Signature.unbounded] = some kb ∧
      (entails { kb } { formula := twoCycle }).1 = .ok false ∧
      ∃ (D : Type) (_ : Nonempty D) (M : Structure D),
        M.Models Signature.unbounded ∧ ¬ M.Models twoCycle := by
  have heval : ((KnowledgeBase.ofAxioms? [Signature.unbounded]).map fun kb =>
      (entails { kb } { formula := twoCycle }).1.toOption) = some (some false) := by
    decide +kernel
  obtain ⟨kb, hkb, hno⟩ := Option.map_eq_some_iff.1 heval
  have hno := eq_ok_of_toOption hno
  obtain ⟨hb, hfs⟩ := KnowledgeBase.ofAxioms?_eq_some hkb
  obtain ⟨D, hD, M, hM, hq⟩ := entails_complete hb rfl rfl hno
  have hmem : Signature.unbounded ∈ kb.entries.map KnowledgeEntry.formula := by simp [hfs]
  obtain ⟨e, he, hf⟩ := List.mem_map.1 hmem
  exact ⟨kb, hkb, hno, D, hD, M, hf ▸ hM e he, hq⟩

/-! ### Saturated searches -/

/-- Saturated means closed. When the search for a question, or for values, ends saturated, every
clause it began with, every resolvent of two usable clauses and, if the search uses factors, every
factor of a usable clause is a tautology or covered by a usable clause. -/
theorem saturated_closed (hb : r.kb.Built) (ho : r.options.strategy.occursCheck = true)
    {g : Formula} (hg : g = .not q.formula.closure ∨ g = negatedGoal q.formula)
    {ds : List Derived} (hds : r.queryClauses q g = .ok ds) {s : Search} (hs : r.Searched ds s)
    (hst : s.status = .saturated) :
    (∀ d ∈ r.premises ds, Clause.Redundant s.Usable d.clause) ∧
    (∀ c d, s.Usable c → s.Usable d → ∀ e, c.Resolvent d e → Clause.Redundant s.Usable e) ∧
    (r.options.strategy.factoring = true →
      ∀ c, s.Usable c → ∀ e, c.Factor e → Clause.Redundant s.Usable e) := by
  have hrecasts : Recasts g q.formula := by
    rcases hg with rfl | rfl
    · exact recasts_not_closure q.formula
    · exact recasts_negatedGoal q.formula
  obtain ⟨sig, hin⟩ := hrecasts.input hds
  have hcomplete := hs.complete hb.valid ho rfl fun d hd => (hin d hd).1.standard
  obtain ⟨-, -, hfault⟩ := hcomplete.saturated hst
  exact hcomplete.closed_of_saturated hst hfault

-- the usable clauses are those of the axiom and of the question, a factor and a resolvent
theorem saturated_closed_twoCycle :
    ∃ kb ds s, KnowledgeBase.ofAxioms? [Signature.unbounded] = some kb ∧
      queryClauses { kb } { formula := twoCycle } (.not twoCycle.closure) = .ok ds ∧
      Searched { kb } ds s ∧ s.status = .saturated ∧ s.agenda.usable.clauses.length = 4 ∧
      (∀ c d, s.Usable c → s.Usable d → ∀ e, c.Resolvent d e → Clause.Redundant s.Usable e) ∧
      ∀ c, s.Usable c → ∀ e, c.Factor e → Clause.Redundant s.Usable e := by
  have heval : ((KnowledgeBase.ofAxioms? [Signature.unbounded]).map fun kb =>
      (queryClauses { kb } { formula := twoCycle } (.not twoCycle.closure)).toOption.map fun ds =>
        let s := (({} : Search).seedAll (premises { kb } ds)).run
        (s.status, s.agenda.usable.clauses.length)) = some (some (.saturated, 4)) := by
    decide +kernel
  obtain ⟨kb, hkb, heval⟩ := Option.map_eq_some_iff.1 heval
  obtain ⟨ds, hds, heval⟩ := Option.map_eq_some_iff.1 heval
  obtain ⟨hst, hlength⟩ := Prod.mk.inj heval
  have hds := eq_ok_of_toOption hds
  obtain ⟨hb, -⟩ := KnowledgeBase.ofAxioms?_eq_some hkb
  obtain ⟨-, hresolvents, hfactors⟩ :=
    saturated_closed (r := { kb }) hb rfl (Or.inl rfl) hds ⟨_, _, {}, rfl⟩ hst
  exact ⟨kb, ds, _, hkb, hds, ⟨_, _, {}, rfl⟩, hst, hlength, hresolvents, hfactors rfl⟩

end Elenchus.Reasoner

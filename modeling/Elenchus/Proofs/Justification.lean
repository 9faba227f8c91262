import Elenchus.Proofs.Questions
import Elenchus.Proofs.Traces

/-! Every yes comes with a proof that replays, from active clauses and the negated question. -/

namespace Elenchus

namespace Reasoner

variable {r : Reasoner} {q : Question} {ds : List Derived} {s : Search} {g : Formula}

/-! ### Proofs that can be shown -/

/-- The proof at hand replays from the premises and ends in a clause of the right kind. -/
def Justified (r : Reasoner) (premises : List Derived) (kind : Clause → Prop) : Prop :=
  ∃ t c, r.currentProof = .ok t ∧ t.replay = .ok () ∧ (∀ u ∈ t.premises, u.derived ∈ premises) ∧
    t.conclusion = some c ∧ kind c

/-- The proof of a refutation. Its last clause has a literal only if the refuted formula has an
answer atom. -/
theorem Searched.exists_proof (hr : r.kb.Valid) (ho : r.options.strategy.occursCheck = true)
    (hg : Recasts g q.formula) (hds : r.queryClauses q g = .ok ds) (hs : r.Searched ds s)
    (hst : s.status = .refuted) :
    ∃ t c, s.outcome.proofTrace = .ok t ∧ t.replay = .ok () ∧
      (∀ u ∈ t.premises, u.derived ∈ r.premises ds) ∧ t.conclusion = some c ∧
      (c.literals = [] ∨ (∃ l, c.literals = [l] ∧ l.atom.pred = Literal.answerMark) ∧
        ∃ a ∈ g.atoms, a.pred = Literal.answerMark) := by
  obtain ⟨sig, hin⟩ := hg.input hds
  have hsound := hs.sound hr ho fun d hd => (hin d hd).1.standard
  have hparents : ∀ d ∈ r.premises ds, Arena.parentsOf d = [] := by
    intro d hd
    rcases mem_premises.1 hd with ⟨f, hf, rfl⟩ | hd
    · obtain ⟨e, he, hfe⟩ := hr.origin f hf
      exact (hr.input e he _ hfe).parents
    · exact (hin d hd).1.parents
  have hpreds := pred_premises hr (P := Admits g) (fun _ => Or.inl) fun d hd => (hin d hd).2
  obtain ⟨f, hid, hf, href⟩ := hsound.refuted hst
  obtain ⟨t, ht, hreplay, hprem, hc⟩ := hsound.history.exists_replay hparents hf
  refine ⟨t, f.clause, ?_, hreplay, hprem, hc, ?_⟩
  · have ht : Proof.Trace.ofArena s.agenda.usable.arena (.int f.id) = .ok t := ht
    simp only [Search.outcome, Outcome.proofTrace, hst, hid, ht]
    rfl
  · refine (Search.isRefutation_iff.1 href).imp_right ?_
    rintro ⟨l, hl, hans⟩
    rcases hsound.pred hpreds hf l (by simp [hl]) with hno | ⟨hmark, a, ha, hp⟩
    · simp [isReserved_of_isAnswer hans] at hno
    · exact ⟨⟨l, hl, hmark⟩, a, ha, hp.trans hmark⟩

/-- A yes is proved by the empty clause. -/
theorem entails_justified (hb : r.kb.Built) (ho : r.options.strategy.occursCheck = true)
    (h : (r.entails q).1 = .ok true) :
    ∃ ds, r.queryClauses q (.not q.formula.closure) = .ok ds ∧
      (r.entails q).2.Justified (r.premises ds) fun c => c.literals = [] := by
  obtain ⟨ds, s, hds, hs, -, hst, hr'⟩ := entails_cases h
  obtain ⟨t, c, ht, hreplay, hprem, hc, hlits⟩ :=
    hs.exists_proof hb.valid ho (recasts_not_closure q.formula) hds hst
  refine ⟨ds, hds, t, c, ?_, hreplay, hprem, hc, hlits.resolve_right ?_⟩
  · rw [hr', currentProof]
    simpa using ht
  · rintro ⟨-, a, ha, hmark⟩
    obtain ⟨-, -, hres, -⟩ := queryClauses_eq_ok hds
    have hno := hres a (Formula.atoms_closure q.formula ▸ ha)
    rw [hmark] at hno
    exact absurd hno (by decide)

/-- Every proof that is handed out replays. After a yes, or after values are found, the proof at
hand replays, its premises are active clauses of the knowledge base or clauses of the negated
question, and it ends in the empty clause, or in one answer literal if values are asked for. -/
theorem currentProof_replays (hb : r.kb.Built) (ho : r.options.strategy.occursCheck = true) :
    ((r.entails q).1 = .ok true →
      ∃ ds, r.queryClauses q (.not q.formula.closure) = .ok ds ∧
        (r.entails q).2.Justified (r.premises ds) fun c => c.literals = []) ∧
    ∀ bs, (r.solve q).1 = .ok (some bs) →
      ∃ ds, r.queryClauses q (negatedGoal q.formula) = .ok ds ∧
        (r.solve q).2.Justified (r.premises ds) fun c => c.literals = [] ∨
          answerVars q.formula ≠ [] ∧
            ∃ l, c.literals = [l] ∧ l.atom.pred = Literal.answerMark := by
  refine ⟨entails_justified hb ho, fun bs h => ?_⟩
  rcases solve_cases h with ⟨hvars, hyes, hr'⟩ | ⟨hvars, ds, s, hds, hs, hst, hr'⟩
  · obtain ⟨ds, hds, t, c, ht, hreplay, hprem, hc, hempty⟩ := entails_justified hb ho hyes
    refine ⟨ds, by rw [negatedGoal, hvars]; exact hds, t, c, hr' ▸ ht, hreplay, hprem, hc, ?_⟩
    exact Or.inl hempty
  · obtain ⟨t, c, ht, hreplay, hprem, hc, hlits⟩ :=
      hs.exists_proof hb.valid ho (recasts_answer q.formula _) hds hst
    refine ⟨ds, ?_, t, c, ?_, hreplay, hprem, hc, hlits.imp_right fun hl => ⟨hvars, hl.1⟩⟩
    · rw [negatedGoal]
      split
      · contradiction
      · exact hds
    · rw [hr', currentProof]
      simpa using ht

/-- Something is above zero. -/
def aboveZero : Formula := .ex (.var "y") (.atomic ⟨"less", [.app "zero" [], .var "y"]⟩)

theorem currentProof_replays_aboveZero :
    ∃ kb, KnowledgeBase.ofAxioms? [Signature.unbounded] = some kb ∧
      (entails { kb } { formula := aboveZero }).1 = .ok true ∧
      (∃ ds, queryClauses { kb } { formula := aboveZero } (.not aboveZero.closure) = .ok ds ∧
        (entails { kb } { formula := aboveZero }).2.Justified (premises { kb } ds)
          fun c => c.literals = []) ∧
      ∃ bs, (solve { kb } { formula := aboveZero }).1 = .ok (some bs) ∧
        ∃ ds, queryClauses { kb } { formula := aboveZero } (negatedGoal aboveZero) = .ok ds ∧
          (solve { kb } { formula := aboveZero }).2.Justified (premises { kb } ds)
            fun c => c.literals = [] ∨ answerVars aboveZero ≠ [] ∧
              ∃ l, c.literals = [l] ∧ l.atom.pred = Literal.answerMark := by
  have heval : ((KnowledgeBase.ofAxioms? [Signature.unbounded]).map fun kb =>
      ((entails { kb } { formula := aboveZero }).1.toOption,
        (solve { kb } { formula := aboveZero }).1.toOption.join.isSome)) =
      some (some true, true) := by
    decide +kernel
  obtain ⟨kb, hkb, h⟩ := Option.map_eq_some_iff.1 heval
  obtain ⟨hyes, hsome⟩ := Prod.mk.inj h
  have hyes := eq_ok_of_toOption hyes
  obtain ⟨bs, hbs⟩ := Option.isSome_iff_exists.1 hsome
  have hbs := eq_ok_of_toOption (Option.join_eq_some_iff.1 hbs)
  obtain ⟨hb, -⟩ := KnowledgeBase.ofAxioms?_eq_some hkb
  obtain ⟨hentails, hsolve⟩ :=
    currentProof_replays (r := { kb }) (q := { formula := aboveZero }) hb rfl
  exact ⟨kb, hkb, hyes, hentails hyes, bs, hbs, hsolve bs hbs⟩

end Reasoner

end Elenchus

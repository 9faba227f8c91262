import Elenchus.Proofs.WorkingSets

/-! The course of a search: first its whole input, then round after round. -/

namespace Elenchus

namespace Search

variable {strategy : Strategy} {seeds ds : List Derived} {s s' : Search} {d : Derived} {f : Filed}

/-! ### Rounds -/

theorem run_eq (s : Search) : s.run = s.begun.stepWithin s.begun.roundBound := rfl

theorem begun_of_ready (hs : s.status = .ready) :
    s.begun = { s with status := .searching, fault := none } := by
  rw [begun_eq, if_pos hs]

theorem begun_of_ne_ready (hs : s.status ≠ .ready) : s.begun = { s with fault := none } := by
  rw [begun_eq, if_neg hs]

theorem begun_status_ne_ready (s : Search) : s.begun.status ≠ .ready := by
  by_cases hs : s.status = .ready
  · rw [begun_of_ready hs]
    exact Status.noConfusion
  · rw [begun_of_ne_ready hs]
    exact hs

theorem begun_limits (s : Search) : s.begun.limits = s.limits := by rw [begun_eq]

theorem step_begun (s : Search) : s.begun.step = s.step := by
  have hbegun : s.begun.begun = s.begun := begun_of_ne_ready (begun_status_ne_ready s)
  rw [step_eq, step_eq, hbegun]

theorem Move.status_ne_ready (hm : Move s s') (hs : s.status ≠ .ready) : s'.status ≠ .ready := by
  cases hm with
  | aside hv _ => exact fun h => hs ((congrArg status hv.symm).trans h)
  | seed h => exact absurd h hs
  | use _ _ _ =>
    rw [(makeUsable_frame _ _).2.2.1]
    exact hs
  | refuteInput _ _ => exact Status.noConfusion
  | exhaust _ _ => exact Status.noConfusion
  | saturate _ _ _ => exact Status.noConfusion
  | refute _ _ => exact Status.noConfusion
  | _ => exact hs

theorem step_status_ne_ready (s : Search) : s.step.status ≠ .ready :=
  (step_moves s).invariant (fun _ _ => Move.status_ne_ready) (begun_status_ne_ready s)

/-- What every move and the beginning of a round preserve holds from the first round on. -/
theorem iterate_step_of_begun {P : Search → Prop} (hbegun : ∀ s, P s → P s.begun)
    (hP : ∀ s s', Move s s' → P s → P s') (hs : P s.begun) (n : Nat) : P (step^[n + 1] s) :=
  iterate_step_invariant hbegun hP ((step_moves s).invariant hP hs) n

/-- Nothing is done once a search is at its end. -/
theorem step_of_isFinal (hs : s.status.isFinal = true) : s.step = { s with fault := none } := by
  have hready : s.status ≠ .ready := fun h => by simp [h, Status.isFinal] at hs
  have hsearching : s.status ≠ .searching := fun h => by simp [h, Status.isFinal] at hs
  rw [step_eq, begun_of_ne_ready hready, if_neg hsearching]

theorem roundBound_pos (s : Search) : 0 < s.roundBound := by
  rw [roundBound]
  split
  · omega
  · omega
  · exact Nat.succ_pos _

/-- Rounds are taken as long as the search goes on. -/
theorem stepWithin_eq_iterate (n : Nat) (s : Search) :
    ∃ m, s.stepWithin n = step^[m] s ∧ ∀ i < m, (step^[i] s).status = .searching := by
  induction n generalizing s with
  | zero => exact ⟨0, rfl, by simp⟩
  | succ n ih =>
    rw [stepWithin]
    split
    · next hgo =>
      obtain ⟨m, hm, hearlier⟩ := ih s.step
      refine ⟨m + 1, hm, fun i hi => ?_⟩
      cases i with
      | zero => exact of_decide_eq_true (Bool.and_eq_true_iff.1 hgo).1
      | succ i => exact hearlier i (Nat.lt_of_succ_lt_succ hi)
    · exact ⟨0, rfl, by simp⟩

/-- To run a search is to take a number of rounds. -/
theorem exists_run_eq_iterate (s : Search) : ∃ n, s.run = step^[n + 1] s := by
  obtain ⟨k, hk⟩ := Nat.exists_eq_add_one.2 (roundBound_pos s.begun)
  rw [run_eq, hk, stepWithin]
  split
  · obtain ⟨m, hm, -⟩ := stepWithin_eq_iterate k s.begun.step
    exact ⟨m, by rw [hm, step_begun, Function.iterate_succ_apply]⟩
  · next hstop =>
    have hs : s.begun.status ≠ .searching := by
      intro h
      rw [h] at hstop
      exact hstop rfl
    exact ⟨0, by rw [Function.iterate_one, step_eq, if_neg hs]⟩

theorem Reached.iterate (h : Reached strategy seeds s) (n : Nat) :
    Reached strategy seeds (Search.step^[n] s) := by
  induction n with
  | zero => exact h
  | succ n ih =>
    rw [Function.iterate_succ_apply']
    exact ih.step

theorem Reached.run (h : Reached strategy seeds s) : Reached strategy seeds s.run := by
  obtain ⟨n, hn⟩ := exists_run_eq_iterate s
  exact hn ▸ h.iterate (n + 1)

/-! ### Input -/

/-- Input may be taken in one go as well. -/
theorem seedAll_append (hs : (s.seedAll ds).status = .ready) (es : List Derived) :
    (s.seedAll ds).seedAll es = s.seedAll (ds ++ es) := by
  induction ds generalizing s with
  | nil => rfl
  | cons d ds ih =>
    rw [seedAll] at hs
    rw [List.cons_append, seedAll, seedAll]
    split at hs
    · cases hs
    · next hr =>
      rw [if_neg hr, if_neg hr]
      split at hs
      · next hq => rw [if_pos hq, if_pos hq, ih hs]
      · next hq => rw [if_neg hq, if_neg hq, ih hs]

/-- All clauses of a search in the order of their numbers. -/
def filed (s : Search) : List Derived := s.agenda.usable.arena.entries.toList

theorem filed_file (s : Search) (d : Derived) : (s.file d).2.filed = s.filed ++ [d] :=
  Array.toList_push

theorem files_iff_filed : s.Files f ↔ s.filed[f.id]? = some f.derived := by
  rw [filed, Array.getElem?_toList]
  exact Iff.rfl

/-- Taking in input files a beginning of it, or all of it if nothing in it is a refutation; but for
that only the queue changes. -/
structure TakesIn (s : Search) (ds : List Derived) (s' : Search) : Prop where
  filed : ∃ es, es <+: ds ∧ s'.filed = s.filed ++ es ∧ (s'.status = .ready → es = ds)
  status : s'.status = .ready ∨ s'.status = .refuted
  statistics : s'.statistics = s.statistics
  active : s'.agenda.usable.active = s.agenda.usable.active
  fault : s'.fault = s.fault

theorem TakesIn.cons {s₁ : Search} (h : s₁.TakesIn ds s') (hfiled : s₁.filed = s.filed ++ [d])
    (hstatistics : s₁.statistics = s.statistics)
    (hactive : s₁.agenda.usable.active = s.agenda.usable.active) (hfault : s₁.fault = s.fault) :
    s.TakesIn (d :: ds) s' := by
  obtain ⟨es, hes, heq, hall⟩ := h.filed
  refine ⟨⟨d :: es, List.cons_prefix_cons.2 ⟨rfl, hes⟩, ?_, fun hs => by rw [hall hs]⟩, h.status,
    h.statistics.trans hstatistics, h.active.trans hactive, h.fault.trans hfault⟩
  rw [heq, hfiled, List.append_assoc, List.singleton_append]

theorem seedAll_takesIn (hs : s.status = .ready) (ds : List Derived) :
    s.TakesIn ds (s.seedAll ds) := by
  induction ds generalizing s with
  | nil =>
    exact ⟨⟨[], List.prefix_rfl, (List.append_nil _).symm, fun _ => rfl⟩, Or.inl hs, rfl, rfl, rfl⟩
  | cons d ds ih =>
    rw [seedAll]
    split
    · exact ⟨⟨[d], List.cons_prefix_cons.2 ⟨rfl, List.nil_prefix⟩, filed_file s d,
        Status.noConfusion⟩, Or.inr rfl, rfl, rfl, rfl⟩
    · split
      · exact (ih (s := (s.file d).2) hs).cons (filed_file s d) rfl rfl rfl
      · exact (ih (s := s.enqueue d) hs).cons (filed_file s d) rfl rfl rfl

theorem TakesIn.lt_length (h : s.TakesIn ds s') (hs : s.filed = []) (hf : s'.Files f) :
    f.id < ds.length := by
  obtain ⟨es, hes, heq, -⟩ := h.filed
  obtain ⟨hlt, -⟩ := List.getElem?_eq_some_iff.1 (files_iff_filed.1 hf)
  rw [heq, hs, List.nil_append] at hlt
  exact hlt.trans_le hes.length_le

/-! ### Every state -/

theorem step_seedAll_of_refuted (hs : s.status = .ready) (hf : s.fault = none)
    (hr : (s.seedAll ds).status ≠ .ready) : (s.seedAll ds).step = s.seedAll ds := by
  have hin := seedAll_takesIn hs ds
  rw [step_of_isFinal (by rw [hin.status.resolve_left hr]; rfl), ← hf, ← hin.fault]

/-- The rounds that lead to a state follow all of the input. -/
theorem Reached.eq_iterate (h : Reached strategy seeds s) :
    ∃ limits selector around n,
      s = Search.step^[n] (seedAll { limits, selector, around, strategy } seeds) := by
  induction h with
  | create limits selector around => exact ⟨limits, selector, around, 0, rfl⟩
  | seed _ hs ih =>
    obtain ⟨limits, selector, around, n, rfl⟩ := ih
    obtain ⟨hready, rfl⟩ := seed_eq_ok hs
    cases n with
    | zero => exact ⟨limits, selector, around, 0, seedAll_append hready _⟩
    | succ n =>
      rw [Function.iterate_succ_apply'] at hready
      exact absurd hready (step_status_ne_ready _)
  | step _ ih =>
    obtain ⟨limits, selector, around, n, rfl⟩ := ih
    exact ⟨limits, selector, around, n + 1, (Function.iterate_succ_apply' ..).symm⟩

/-- A search has taken in its input and nothing else has happened, or it has gone on from there. -/
theorem Reached.phase (h : Reached strategy seeds s) :
    ∃ limits selector around, s = seedAll { limits, selector, around, strategy } seeds ∨
      (seedAll { limits, selector, around, strategy } seeds).status = .ready ∧
        ∃ n, s = Search.step^[n + 1] (seedAll { limits, selector, around, strategy } seeds) := by
  obtain ⟨limits, selector, around, n, rfl⟩ := h.eq_iterate
  refine ⟨limits, selector, around, ?_⟩
  by_cases hs : (seedAll { limits, selector, around, strategy } seeds).status = .ready
  · cases n with
    | zero => exact Or.inl rfl
    | succ n => exact Or.inr ⟨hs, n, rfl⟩
  · exact Or.inl (Function.iterate_fixed (step_seedAll_of_refuted rfl rfl hs) n)

theorem Move.filed_extends (hm : Move s s') : s.filed <+: s'.filed := by
  cases hm with
  | aside hv _ =>
    have heq : s'.filed = s.filed := (congrArg filed hv :)
    exact heq ▸ List.prefix_rfl
  | file d => exact filed_file s d ▸ List.prefix_append _ _
  | seed _ _ _ => exact filed_file s _ ▸ List.prefix_append _ _
  | refuteInput _ _ => exact filed_file s _ ▸ List.prefix_append _ _
  | use _ _ _ =>
    rw [filed, filed, makeUsable_arena]
    exact List.prefix_rfl
  | refute _ _ => exact filed_file s _ ▸ List.prefix_append _ _
  | keep _ _ _ _ _ _ => exact filed_file s _ ▸ List.prefix_append _ _
  | _ => exact List.prefix_rfl

/-- The first clauses that are filed are the input. -/
theorem Reached.filed_extends (h : Reached strategy seeds s) :
    s.filed <+: seeds ∨ seeds <+: s.filed := by
  obtain ⟨limits, selector, around, hs⟩ := h.phase
  obtain ⟨es, hes, heq, hall⟩ :=
    (seedAll_takesIn (s := { limits, selector, around, strategy }) rfl seeds).filed
  rcases hs with rfl | ⟨hready, n, rfl⟩
  · exact Or.inl (heq ▸ hes)
  · obtain rfl := hall hready
    refine Or.inr (iterate_step_invariant (P := fun s => es <+: s.filed) (fun s hs => ?_)
      (fun _ _ hm hs => hs.trans hm.filed_extends) (heq ▸ List.prefix_rfl) _)
    rw [begun_eq]
    exact hs

/-- A clause with the number of a seed is this seed. -/
theorem Reached.seed_of_lt (h : Reached strategy seeds s) (hf : s.Files f)
    (hid : f.id < seeds.length) : seeds[f.id]? = some f.derived := by
  have hget := files_iff_filed.1 hf
  obtain ⟨ds, hds⟩ | ⟨ds, hds⟩ := h.filed_extends
  · obtain ⟨hlt, -⟩ := List.getElem?_eq_some_iff.1 hget
    rwa [← hds, List.getElem?_append_left hlt]
  · rwa [← hds, List.getElem?_append_left hid] at hget

end Search

end Elenchus

import Elenchus.Proofs.Accounts
import Elenchus.Proofs.Questions

/-! Searches with a bound on the given or kept clauses end; patience does not change their ends. -/

namespace Elenchus

namespace Search

variable {strategy : Strategy} {seeds : List Derived} {s : Search} {b : Int}

/-- No clause is given any more once so many were given. -/
def GivesBelow (b : Int) (s : Search) : Prop :=
  s.limitReached = .ok none → (s.statistics.given : Int) < b

theorem givesBelow_of_maxGiven (hb : wholeBound? s.limits.maxGiven = some b) : s.GivesBelow b :=
  fun h => lt_of_limitReached h hb

theorem Reached.givesBelow_of_maxClauses (h : Reached strategy seeds s)
    (hb : wholeBound? s.limits.maxClauses = some b) : s.GivesBelow (seedsQueued seeds + b) := by
  intro hopen
  have hall := Limits.firstHolding_eq_ok_none hopen
  simp only [List.forall_mem_cons] at hall
  obtain ⟨-, hkept, -⟩ := hall
  rw [Limits.reached_of_wholeBound? hb, Option.some.injEq, decide_eq_false_iff_not] at hkept
  have hqueue : seedsQueued seeds + s.statistics.kept =
    s.statistics.given + s.agenda.waiting.length := h.queueBalanced
  omega

/-! ### Rounds -/

/-- What a bounded search needs to go on: its bounds can be compared, there is a selector, and the
depths of the seeds are numbers. -/
structure CanGoOn (seeds : List Derived) (s : Search) : Prop where
  limits : s.limits.IsProper
  selector : s.selector.isSome = true
  levels : ∀ d ∈ seeds, d.HasLevel

theorem isFinal_or_searching (hs : s.status ≠ .ready) :
    s.status.isFinal = true ∨ s.status = .searching := by
  cases hstatus : s.status with
  | ready => exact absurd hstatus hs
  | searching => exact Or.inr rfl
  | _ => exact Or.inl rfl

theorem Reached.step_fault (h : Reached strategy seeds s) (hgo : s.CanGoOn seeds) :
    s.step.fault = none := by
  rcases h.descends.step_fault hgo.levels hgo.limits with hf | ⟨hnone, -⟩
  · exact hf
  · have hselector := hgo.selector
    rw [hnone] at hselector
    cases hselector

/-- A round that does not end the search gives one clause, and the search can go on. -/
theorem Reached.step_gives (h : Reached strategy seeds s) (hgo : s.CanGoOn seeds) :
    s.step.status.isFinal = true ∨ s.step.CanGoOn seeds ∧ s.limitReached = .ok none ∧
      s.step.statistics.given = s.statistics.given + 1 := by
  have hfault := h.step_fault hgo
  rw [step_eq] at hfault ⊢
  split at hfault
  · next hs =>
    rw [if_pos hs]
    have hround := advance_round s.begun
    generalize s.begun.advance = s' at hround hfault
    cases hround with
    | fail fault _ => cases hfault
    | exhaust selector _ => exact Or.inl rfl
    | saturate selector _ _ => exact Or.inl rfl
    | @process selector i given hl _ =>
      right
      have hframe := process_frame (taken { s.begun with selector := some selector } i given) given
      generalize process (taken { s.begun with selector := some selector } i given) given = s'
        at hframe
      obtain ⟨hlimits, hrest⟩ := Prod.mk.inj hframe
      obtain ⟨hselector, hgiven⟩ := Prod.mk.inj hrest
      rw [begun_eq] at hl hlimits hgiven
      refine ⟨⟨?_, ?_, hgo.levels⟩, hl, hgiven⟩
      · rw [hlimits]
        exact hgo.limits
      · rw [hselector]
        rfl
  · next hs =>
    rw [if_neg hs]
    exact Or.inl ((isFinal_or_searching (begun_status_ne_ready s)).resolve_right hs)

theorem stepWithin_of_isFinal (hs : s.status.isFinal = true) (n : Nat) : s.stepWithin n = s := by
  cases n with
  | zero => rfl
  | succ n =>
    have hsearching : s.status ≠ .searching := fun h => by simp [h, Status.isFinal] at hs
    rw [stepWithin, if_neg (by simp [hsearching])]

/-- A search takes all rounds that lead to an end, if it may take so many. -/
theorem stepWithin_eq_of_isFinal {n k : Nat} (hnk : n ≤ k)
    (hgo : ∀ i < n, (step^[i] s).status = .searching ∧ (step^[i] s).fault = none)
    (hend : (step^[n] s).status.isFinal = true) : s.stepWithin k = step^[n] s := by
  induction n generalizing s k with
  | zero => exact stepWithin_of_isFinal hend k
  | succ n ih =>
    obtain ⟨m, rfl⟩ : ∃ m, k = m + 1 := ⟨k - 1, by omega⟩
    obtain ⟨hsearching, hfault⟩ : s.status = .searching ∧ s.fault = none := hgo 0 n.succ_pos
    rw [stepWithin, hsearching, hfault]
    exact ih (Nat.le_of_succ_le_succ hnk) (fun i hi => hgo (i + 1) (Nat.succ_lt_succ hi)) hend

/-- More rounds than clauses that may still be given lead to the end. -/
theorem Reached.stepWithin_ends
    (hb : ∀ t, Reached strategy seeds t → t.limits = s.limits → t.GivesBelow b)
    (h : Reached strategy seeds s) (hgo : s.CanGoOn seeds) {n : Nat}
    (hn : (b - s.statistics.given).toNat < n) :
    (s.begun.stepWithin n).status.isFinal = true ∧ (s.begun.stepWithin n).fault = none := by
  induction n generalizing s with
  | zero => exact absurd hn (Nat.not_lt_zero _)
  | succ n ih =>
    rcases isFinal_or_searching (begun_status_ne_ready s) with hfinal | hsearching
    · rw [stepWithin_of_isFinal hfinal]
      exact ⟨hfinal, rfl⟩
    · have hfault := h.step_fault hgo
      have hstep : s.begun.stepWithin (n + 1) = s.step.stepWithin n := by
        rw [stepWithin, hsearching, step_begun]
        rfl
      rw [hstep]
      rcases h.step_gives hgo with hfinal | ⟨hgo', hopen, hgiven⟩
      · rw [stepWithin_of_isFinal hfinal]
        exact ⟨hfinal, hfault⟩
      · have hbegun : s.step.begun = s.step := by
          rw [begun_of_ne_ready (step_status_ne_ready s), ← hfault]
        have hlimits : s.step.limits = s.limits := iterate_step_limits s 1
        have hlt := hb s h rfl hopen
        rw [← hbegun]
        refine ih (fun t ht heq => hb t ht (heq.trans hlimits)) h.step hgo' ?_
        rw [hgiven]
        omega

/-! ### Runs -/

theorem Reached.run_isFinal_of_maxGiven (h : Reached strategy seeds s) (hgo : s.CanGoOn seeds)
    (hb : wholeBound? s.limits.maxGiven = some b) :
    s.run.status.isFinal = true ∧ s.run.fault = none := by
  have hbound : s.begun.roundBound = (b - s.statistics.given).toNat + 1 := by
    rw [begun_eq, roundBound, hb]
  rw [run_eq, hbound]
  exact h.stepWithin_ends (fun t _ ht => givesBelow_of_maxGiven (ht ▸ hb)) hgo (Nat.lt_succ_self _)

theorem Reached.run_isFinal_of_maxClauses (h : Reached strategy seeds s) (hgo : s.CanGoOn seeds)
    (hnone : wholeBound? s.limits.maxGiven = none)
    (hb : wholeBound? s.limits.maxClauses = some b) :
    s.run.status.isFinal = true ∧ s.run.fault = none := by
  have hbound : s.begun.roundBound =
      s.agenda.waiting.length + (b - s.statistics.kept).toNat + 1 := by
    rw [begun_eq, roundBound, hnone, hb]
  have hqueue : seedsQueued seeds + s.statistics.kept =
    s.statistics.given + s.agenda.waiting.length := h.queueBalanced
  rw [run_eq, hbound]
  refine h.stepWithin_ends (b := seedsQueued seeds + b)
    (fun t ht heq => ht.givesBelow_of_maxClauses (heq ▸ hb)) hgo ?_
  omega

/-- A search with a bound on the given or the kept clauses ends. From every state, a run comes to an
end without a fault, and it is made of the rounds up to the first state that is final. Other bounds
may be set or not. -/
theorem Reached.run_ends (h : Reached strategy seeds s) (hl : s.limits.IsProper)
    (hselector : s.selector.isSome = true) (hseeds : ∀ d ∈ seeds, d.HasLevel)
    (hbound : (wholeBound? s.limits.maxGiven).isSome = true ∨
      (wholeBound? s.limits.maxClauses).isSome = true) :
    s.run.status.isFinal = true ∧ s.run.fault = none ∧
      ∃ n, s.run = Search.step^[n] s.begun ∧
        ∀ m < n, (Search.step^[m] s.begun).status.isFinal = false := by
  have hgo : s.CanGoOn seeds := ⟨hl, hselector, hseeds⟩
  have hends : s.run.status.isFinal = true ∧ s.run.fault = none := by
    cases hg : wholeBound? s.limits.maxGiven with
    | some b => exact h.run_isFinal_of_maxGiven hgo hg
    | none =>
      rw [hg] at hbound
      obtain ⟨b, hb⟩ := Option.isSome_iff_exists.1 (hbound.resolve_left (by simp))
      exact h.run_isFinal_of_maxClauses hgo hg hb
  obtain ⟨n, hn, hearlier⟩ := stepWithin_eq_iterate s.begun.roundBound s.begun
  refine ⟨hends.1, hends.2, n, hn, fun m hm => ?_⟩
  rw [hearlier m hm]
  rfl

/-- There is always another number, and only the kept clauses are bounded. -/
def endless : Search := seedAll
  { limits := { maxGiven := .null, maxClauses := .int 2, maxClauseSize := .null } } counting

-- the second round keeps three clauses, one more than the bound, and the third is the last
theorem Reached.run_ends_endless :
    Reached {} counting endless ∧ endless.limits.IsProper ∧ endless.selector.isSome = true ∧
      (∀ d ∈ counting, d.HasLevel) ∧ wholeBound? endless.limits.maxGiven = none ∧
      (wholeBound? endless.limits.maxClauses).isSome = true ∧
      endless.run.status.isFinal = true ∧ endless.run.fault = none ∧
      ∃ n, endless.run = Search.step^[n] endless.begun ∧
        ∀ m < n, (Search.step^[m] endless.begun).status.isFinal = false := by
  have hs : Reached {} counting endless := (Reached.create _ (some ⟨.smallest, 0, 0⟩) {}).seed rfl
  have hlimits : endless.limits.IsProper := by
    refine ⟨?_, ?_, ?_, ?_, ?_, ?_⟩
    · exact Or.inl rfl
    · exact Or.inr ⟨_, rfl⟩
    · exact Or.inl rfl
    · exact Or.inl rfl
    · exact Or.inl rfl
    · exact Or.inl rfl
  have hlevels : ∀ d ∈ counting, d.HasLevel := by
    simp only [counting, List.forall_mem_cons]
    exact ⟨⟨_, rfl⟩, ⟨_, rfl⟩, by simp⟩
  have hbound : (wholeBound? endless.limits.maxClauses).isSome = true := by decide +kernel
  obtain ⟨hfinal, hfault, hrounds⟩ := hs.run_ends hlimits rfl hlevels (Or.inr hbound)
  exact ⟨hs, hlimits, rfl, hlevels, rfl, hbound, hfinal, hfault, hrounds⟩

end Search

/-! ### Answers -/

namespace Reasoner

open Search

/-- Whatever end a search comes to is the answer, given the patience for the rounds that lead to it:
`around` only has to allow for so many. -/
theorem search_eq_of_isFinal {r : Reasoner} {q : Question} {ds : List Derived} {limits : Limits}
    {selector : Option Selector} {s : Search} {n : Nat}
    (hl : r.limits.override? q.overrides = some limits)
    (hselector : selectorOf r.options = .ok selector)
    (hs : s = (seedAll { limits, selector, around := q.around, strategy := r.options.strategy }
      (r.premises ds)).begun)
    (hn : n ≤ s.roundBound)
    (hgo : ∀ i < n, (step^[i] s).status = .searching ∧ (step^[i] s).fault = none)
    (hend : (step^[n] s).status.isFinal = true) (hfault : (step^[n] s).fault = none) :
    r.search q ds =
      .ok ((step^[n] s).outcome, { r with last := some (step^[n] s).outcome }) := by
  have hrun : (seedAll { limits, selector, around := q.around, strategy := r.options.strategy }
      (r.kb.clauses.map Filed.derived ++ ds)).run = step^[n] s := by
    rw [run_eq, ← premises, ← hs]
    exact stepWithin_eq_of_isFinal hn hgo hend
  rw [Reasoner.search, hl]
  dsimp only
  rw [Search.create, hselector]
  simp only [Except.map, hrun, hfault, hend, if_true]

end Reasoner

end Elenchus

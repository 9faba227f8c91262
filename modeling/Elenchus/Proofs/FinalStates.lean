import Elenchus.Proofs.Bounds
import Elenchus.Proofs.SearchPhases

/-! Why a search has ended, and that its counts and clauses keep to the bounds. -/

namespace Elenchus

/-- The depth, the number of literals and the size of a clause are not beyond the bounds. -/
def Limits.AdmitsClause (l : Limits) (d : Derived) : Prop :=
  Admits l.maxDepth d.depth ∧ Admits l.maxClauseSize (.int d.clause.length) ∧
    Admits l.maxWeight (.int d.clause.size)

namespace Search

variable {strategy : Strategy} {seeds ds : List Derived} {s s' : Search} {d : Derived} {f : Filed}

theorem admitsClause_of_limitExceeded (h : limitExceeded s.limits d = .ok none) :
    s.limits.AdmitsClause d := by
  have hall := Limits.firstHolding_eq_ok_none h
  simp only [List.forall_mem_cons] at hall
  obtain ⟨hdepth, hlength, hsize, -⟩ := hall
  exact ⟨Limits.admits_of_exceeded hdepth, Limits.admits_of_exceeded hlength,
    Limits.admits_of_exceeded hsize⟩

theorem Move.limits_eq (hm : Move s s') : s'.limits = s.limits := by
  cases hm with
  | aside hv _ => exact (congrArg Search.limits hv :)
  | use _ _ _ =>
    rw [makeUsable_eq_replaced]
    rfl
  | _ => rfl

theorem iterate_step_limits (s : Search) (n : Nat) : (step^[n] s).limits = s.limits :=
  iterate_step_invariant (P := fun t => t.limits = s.limits)
    (fun t ht => (begun_limits t).trans ht) (fun _ _ hm ht => hm.limits_eq.trans ht) rfl n

theorem run_limits (s : Search) : s.run.limits = s.limits := by
  obtain ⟨n, hn⟩ := exists_run_eq_iterate s
  rw [hn, iterate_step_limits]

theorem seedAll_limits (hs : s.status = .ready) (ds : List Derived) :
    (s.seedAll ds).limits = s.limits :=
  (seedAll_moves hs ds).invariant (P := fun t => t.limits = s.limits)
    (fun _ _ hm ht => hm.limits_eq.trans ht) rfl

/-! ### Counts -/

/-- A clause is given only while no bound is reached. -/
theorem Move.given_cases (hm : Move s s') : s'.statistics.given = s.statistics.given ∨
    s.limitReached = .ok none ∧ s'.statistics.given = s.statistics.given + 1 := by
  cases hm with
  | aside hv _ => exact Or.inl (congrArg (fun s => s.statistics.given) hv :)
  | giveUpTautology h _ => exact Or.inr ⟨h.unbounded, rfl⟩
  | giveUpSubsumed h _ => exact Or.inr ⟨h.unbounded, rfl⟩
  | use h _ _ =>
    rw [makeUsable_eq_replaced]
    exact Or.inr ⟨h.unbounded, rfl⟩
  | _ => exact Or.inl rfl

theorem lt_of_limitReached {n : Int} (h : s.limitReached = .ok none)
    (hn : wholeBound? s.limits.maxGiven = some n) : (s.statistics.given : Int) < n := by
  have hreached := Limits.firstHolding_eq_ok_none h (.maxGiven, _) (List.mem_cons_self ..)
  rw [Limits.reached_of_wholeBound? hn, Option.some.injEq, decide_eq_false_iff_not] at hreached
  exact Int.not_le.1 hreached

/-- No more clauses are given than the bound allows. -/
def GivenWithin (s : Search) : Prop :=
  ∀ n, wholeBound? s.limits.maxGiven = some n → (s.statistics.given : Int) ≤ max 0 n

theorem Move.givenWithin (hm : Move s s') (h : s.GivenWithin) : s'.GivenWithin := by
  intro n hn
  rw [hm.limits_eq] at hn
  rcases hm.given_cases with heq | ⟨hopen, heq⟩
  · exact heq ▸ h n hn
  · have hlt := lt_of_limitReached hopen hn
    omega

/-- The bound that has dropped a clause is recorded. -/
def DropsRecorded (s : Search) : Prop := s.droppedBy = none → s.statistics.discarded = 0

theorem Move.dropsRecorded (hm : Move s s') (h : s.DropsRecorded) : s'.DropsRecorded := by
  cases hm with
  | aside hv hf =>
    intro hd
    have heq : s'.statistics.discarded = s.statistics.discarded :=
      (congrArg (fun s => s.statistics.discarded) hv :)
    exact heq.trans (h ((congrArg droppedBy hv :).symm.trans hd))
  | use _ _ _ =>
    rw [makeUsable_eq_replaced]
    exact h
  | drop _ _ =>
    intro hd
    cases hs : s.droppedBy <;> simp [Search.drop, generate, hs] at hd
  | _ => exact h

/-! ### Ends -/

/-- What is recorded about the end of a search agrees with its status. -/
structure Concluded (s : Search) : Prop where
  stopped : s.stoppedBy.isSome ↔ s.status = .exhausted
  proved : s.proofId.isSome ↔ s.status = .refuted
  proof : ∀ id, s.proofId = some id →
    ∃ f, s.Files f ∧ f.id = id ∧ isRefutation f.clause = true
  saturated : s.status = .saturated → s.agenda.waiting = [] ∧ s.droppedBy = none

theorem Concluded.open (h : s.Concluded) (hs : s.status.isFinal = false) :
    s.stoppedBy = none ∧ s.proofId = none := by
  refine ⟨Option.not_isSome_iff_eq_none.1 fun hk => ?_,
    Option.not_isSome_iff_eq_none.1 fun hp => ?_⟩
  · rw [h.stopped.1 hk] at hs
    cases hs
  · rw [h.proved.1 hp] at hs
    cases hs

/-- Nothing is concluded while the search goes on. -/
theorem Concluded.goOn (h : s.Concluded) (hs : s.status.isFinal = false)
    (hs' : s'.status.isFinal = false) (hk : s'.stoppedBy = s.stoppedBy)
    (hp : s'.proofId = s.proofId) : s'.Concluded := by
  obtain ⟨hstopped, hproved⟩ := h.open hs
  have hne : ∀ status : Status, status.isFinal = true → s'.status ≠ status := by
    rintro status hfinal rfl
    exact Bool.false_ne_true (hs'.symm.trans hfinal)
  refine ⟨?_, ?_, ?_, fun hc => absurd hc (hne .saturated rfl)⟩
  · simp [hk, hstopped, hne .exhausted rfl]
  · simp [hp, hproved, hne .refuted rfl]
  · simp [hp, hproved]

/-- The record stays right if clauses are only added to the arena. -/
theorem Concluded.mono (h : s.Concluded) (hs : s'.status = s.status)
    (hk : s'.stoppedBy = s.stoppedBy) (hp : s'.proofId = s.proofId)
    (hw : s'.agenda.waiting = s.agenda.waiting) (hd : s'.droppedBy = s.droppedBy)
    (hfiled : s.filed <+: s'.filed) : s'.Concluded where
  stopped := by rw [hk, hs, h.stopped]
  proved := by rw [hp, hs, h.proved]
  proof id hid := by
    obtain ⟨f, hf, heq, hr⟩ := h.proof id (hp ▸ hid)
    obtain ⟨ds, hds⟩ := hfiled
    have hget := files_iff_filed.1 hf
    obtain ⟨hlt, -⟩ := List.getElem?_eq_some_iff.1 hget
    refine ⟨f, files_iff_filed.2 ?_, heq, hr⟩
    rw [← hds, List.getElem?_append_left hlt, hget]
  saturated := by
    rw [hs, hw, hd]
    exact h.saturated

theorem Concluded.refute (h : s.Concluded) (hs : s.status.isFinal = false)
    (hr : isRefutation d.clause = true) : (s.refute d).Concluded where
  stopped := by simp [Search.refute, file, (h.open hs).1]
  proved := by simp [Search.refute]
  proof id hid := by
    obtain rfl := Option.some.inj hid
    exact ⟨⟨_, d⟩, Arena.files_add_self s.agenda.usable.arena d, rfl, hr⟩
  saturated := by simp [Search.refute]

theorem Concluded.exhaust (h : s.Concluded) (hs : s.status.isFinal = false) (k : LimitKind) :
    (s.exhaust k).Concluded where
  stopped := by simp [Search.exhaust]
  proved := by simp [Search.exhaust, (h.open hs).2]
  proof := by simp [Search.exhaust, (h.open hs).2]
  saturated := by simp [Search.exhaust]

theorem Concluded.saturate (h : s.Concluded) (hs : s.status.isFinal = false)
    (hw : s.agenda.waiting = []) (hd : s.droppedBy = none) :
    Concluded { s with status := .saturated } where
  stopped := by simp [(h.open hs).1]
  proved := by simp [(h.open hs).2]
  proof := by simp [(h.open hs).2]
  saturated _ := ⟨hw, hd⟩

theorem Move.concluded (hm : Move s s') (h : s.Concluded) : s'.Concluded := by
  have hready : s.status = .ready → s.status.isFinal = false := fun hs => by rw [hs]; rfl
  have hsearching : s.status = .searching → s.status.isFinal = false := fun hs => by rw [hs]; rfl
  cases hm with
  | aside hv hf =>
    exact h.mono (congrArg status hv :) (congrArg stoppedBy hv :) (congrArg proofId hv :)
      (congrArg (fun s => s.agenda.waiting) hv :) (congrArg droppedBy hv :)
      (Move.aside hv hf).filed_extends
  | file d => exact h.mono rfl rfl rfl rfl rfl (Move.file s d).filed_extends
  | seed hs _ _ => exact h.goOn (hready hs) (hready hs) rfl rfl
  | refuteInput hs hr => exact h.refute (hready hs) hr
  | exhaust hs hk => exact h.exhaust (hsearching hs) _
  | saturate hs hw hd => exact h.saturate (hsearching hs) hw hd
  | giveUpTautology hsel _ =>
    exact h.goOn (hsearching hsel.searching) (hsearching hsel.searching) rfl rfl
  | giveUpSubsumed hsel _ =>
    exact h.goOn (hsearching hsel.searching) (hsearching hsel.searching) rfl rfl
  | use hsel _ _ =>
    rw [makeUsable_eq_replaced]
    exact h.goOn (hsearching hsel.searching) (hsearching hsel.searching) rfl rfl
  | refute hs hr =>
    have hgenerate : s.generate.Concluded := h.goOn (hsearching hs) (hsearching hs) rfl rfl
    exact hgenerate.refute (hsearching hs) hr
  | leaveTautology hs _ => exact h.goOn (hsearching hs) (hsearching hs) rfl rfl
  | drop hs _ => exact h.goOn (hsearching hs) (hsearching hs) rfl rfl
  | leaveSubsumed hs _ => exact h.goOn (hsearching hs) (hsearching hs) rfl rfl
  | keep hs _ _ _ _ _ => exact h.goOn (hsearching hs) (hsearching hs) rfl rfl
  | abort hs _ => exact h.goOn (hsearching hs) (hsearching hs) rfl rfl

theorem Concluded.begun (h : s.Concluded) : s.begun.Concluded := by
  by_cases hs : s.status = .ready
  · rw [begun_of_ready hs]
    exact h.goOn (by rw [hs]; rfl) rfl rfl rfl
  · rw [begun_of_ne_ready hs]
    exact h.mono rfl rfl rfl rfl rfl List.prefix_rfl

theorem Reached.concluded (h : Reached strategy seeds s) : s.Concluded :=
  h.invariant (fun _ => Concluded.begun) (fun _ _ hm => hm.concluded)
    fun limits selector around => ⟨by simp, by simp, by simp, by simp⟩

theorem run_of_isFinal (hs : s.status.isFinal = true) : s.run = { s with fault := none } := by
  have hready : s.status ≠ .ready := fun h => by simp [h, Status.isFinal] at hs
  have hsearching : s.status ≠ .searching := fun h => by simp [h, Status.isFinal] at hs
  obtain ⟨k, hk⟩ := Nat.exists_eq_add_one.2 (roundBound_pos s.begun)
  rw [run_eq, hk, stepWithin, begun_of_ne_ready hready, if_neg]
  simp [hsearching]

/-! ### Inferred clauses -/

/-- The clauses that wait or are usable keep to the bounds on single clauses, but for the first
ones that were filed. -/
def AdmittedFrom (n : Nat) (s : Search) : Prop :=
  ∀ f, f ∈ s.agenda.waiting ∨ f ∈ s.agenda.usable.clauses → n ≤ f.id →
    s.limits.AdmitsClause f.derived

theorem AdmittedFrom.mono {n : Nat} (h : s.AdmittedFrom n) (hl : s'.limits = s.limits)
    (hw : ∀ f ∈ s'.agenda.waiting, f ∈ s.agenda.waiting ∨ s.limits.AdmitsClause f.derived)
    (hu : ∀ f ∈ s'.agenda.usable.clauses, f ∈ s.agenda.waiting ∨ f ∈ s.agenda.usable.clauses) :
    s'.AdmittedFrom n := by
  intro f hf hid
  rw [hl]
  rcases hf with hf | hf
  · rcases hw f hf with hold | hnew
    · exact h f (Or.inl hold) hid
    · exact hnew
  · exact h f (hu f hf) hid

theorem AdmittedFrom.begun {n : Nat} (h : s.AdmittedFrom n) : s.begun.AdmittedFrom n := by
  rw [begun_eq]
  exact h

/-- Once the search has begun, no clause comes to wait that is beyond a bound. -/
theorem Move.admittedFrom {n : Nat} (hm : Move s s') (hs : s.status ≠ .ready)
    (hc : s.Consistent []) (h : s.AdmittedFrom n) : s'.AdmittedFrom n := by
  have hadd : ∀ (d : Derived), ∀ f ∈ (s.agenda.usable.addToArena d).2.clauses,
      f ∈ s.agenda.waiting ∨ f ∈ s.agenda.usable.clauses :=
    fun d f hf => Or.inr ((hc.orderly.indexed.mem_clauses_add d).1 hf)
  cases hm with
  | aside hv hf =>
    have ha : s'.agenda = s.agenda := (congrArg agenda hv :)
    exact h.mono (congrArg Search.limits hv :) (fun f hf => Or.inl (ha ▸ hf))
      fun f hf => Or.inr (ha ▸ hf)
  | file d => exact h.mono rfl (fun _ => Or.inl) (hadd d)
  | seed hready _ _ => exact absurd hready hs
  | refuteInput hready _ => exact absurd hready hs
  | giveUpTautology _ _ =>
    exact h.mono rfl (fun f hf => Or.inl (List.mem_of_mem_eraseIdx hf)) fun _ => Or.inr
  | giveUpSubsumed _ _ =>
    exact h.mono rfl (fun f hf => Or.inl (List.mem_of_mem_eraseIdx hf)) fun _ => Or.inr
  | @use i given hsel ht hsub =>
    have hgiven := List.mem_of_getElem? hsel.waits
    refine h.mono (Move.use hsel ht hsub).limits_eq (fun f hf => Or.inl ?_) fun f hf => ?_
    · rw [(makeUsable_frame _ _).2.2.2] at hf
      exact List.mem_of_mem_eraseIdx hf
    · have hfiles : (s.taken i given).Files given := hc.orderly.filed given hgiven
      rcases (mem_clauses_makeUsable hfiles).1 hf with rfl | ⟨hf, -⟩
      · exact Or.inl hgiven
      · exact Or.inr hf
  | refute _ _ => exact h.mono rfl (fun _ => Or.inl) (hadd _)
  | keep _ _ _ hl _ _ =>
    refine h.mono rfl (fun f hf => ?_) (hadd _)
    rcases List.mem_append.1 hf with hf | hf
    · exact Or.inl hf
    · rw [List.mem_singleton.1 hf]
      exact Or.inr (admitsClause_of_limitExceeded hl)
  | _ => exact h

theorem Reached.admittedFrom (h : Reached strategy seeds s) : s.AdmittedFrom seeds.length := by
  obtain ⟨limits, selector, around, hs⟩ := h.phase
  have hcreate : Reached strategy [] { limits, selector, around, strategy } :=
    .create limits selector around
  have hseed : Reached strategy seeds (seedAll { limits, selector, around, strategy } seeds) :=
    hcreate.seed rfl
  -- after the input there are no other clauses than the seeds
  have hinput :
      (seedAll { limits, selector, around, strategy } seeds).AdmittedFrom seeds.length := by
    intro f hf hid
    have hfiles : (seedAll { limits, selector, around, strategy } seeds).Files f :=
      hf.elim (hseed.consistent.orderly.filed f) Store.files_of_mem_clauses
    exact absurd ((seedAll_takesIn rfl seeds).lt_length rfl hfiles) (Nat.not_lt.2 hid)
  rcases hs with rfl | ⟨hready, n, rfl⟩
  · exact hinput
  · refine (iterate_step_of_begun (P := fun s => s.status ≠ .ready ∧ s.Consistent [] ∧
      s.AdmittedFrom seeds.length) (fun s hs => ?_) (fun _ _ hm hs => ?_) ?_ n).2.2
    · exact ⟨begun_status_ne_ready s, hs.2.1.begun, hs.2.2.begun⟩
    · exact ⟨hm.status_ne_ready hs.1, hm.consistent hs.2.1, hm.admittedFrom hs.1 hs.2.1 hs.2.2⟩
    · exact ⟨begun_status_ne_ready _, hseed.consistent.begun, hinput.begun⟩

/-- A search keeps to its bounds and tells the truth about its end, whatever calls are made: no more
clauses are given than allowed; the clauses at work that are not seeds are not beyond the bounds; a
saturated search has nothing left and has dropped nothing; a bound is named exactly if the search is
exhausted, and a clause exactly if the input is refuted, which is then empty or a single answer; and
at its end a search changes no more and takes no input. Runs are among the calls, and the bounds
stay as they are. -/
theorem Reached.honest (h : Reached strategy seeds s) :
    (∀ n, wholeBound? s.limits.maxGiven = some n → (s.statistics.given : Int) ≤ max 0 n) ∧
    (∀ f, f ∈ s.agenda.waiting ∨ f ∈ s.agenda.usable.clauses →
      seeds[f.id]? = some f.derived ∨ seeds.length ≤ f.id ∧ s.limits.AdmitsClause f.derived) ∧
    (s.status = .saturated → s.agenda.waiting = [] ∧ s.statistics.discarded = 0) ∧
    (s.stoppedBy.isSome = true ↔ s.status = .exhausted) ∧
    (s.proofId.isSome = true ↔ s.status = .refuted) ∧
    (∀ id, s.proofId = some id → ∃ f, s.Files f ∧ f.id = id ∧ (f.clause.literals = [] ∨
      ∃ l, f.clause.literals = [l] ∧ l.isAnswer = true)) ∧
    (s.status.isFinal = true → s.step = { s with fault := none } ∧
      s.run = { s with fault := none } ∧ ∀ ds, s.seed ds = .error s.status) ∧
    Reached strategy seeds s.run ∧ s.run.limits = s.limits := by
  have hend := h.concluded
  have hgiven : s.GivenWithin := h.invariant (fun s hs => by rw [begun_eq]; exact hs)
    (fun _ _ hm => hm.givenWithin) fun _ _ _ n _ => Int.le_max_left 0 n
  have hdrops : s.DropsRecorded := h.invariant (fun s hs => by rw [begun_eq]; exact hs)
    (fun _ _ hm => hm.dropsRecorded) fun _ _ _ _ => rfl
  refine ⟨hgiven, fun f hf => ?_, fun hs => ?_, hend.stopped, hend.proved, fun id hid => ?_,
    fun hs => ⟨step_of_isFinal hs, run_of_isFinal hs, fun ds => ?_⟩, h.run,
    run_limits s⟩
  · have hfiles : s.Files f := hf.elim (h.consistent.orderly.filed f) Store.files_of_mem_clauses
    rcases Nat.lt_or_ge f.id seeds.length with hlt | hge
    · exact Or.inl (h.seed_of_lt hfiles hlt)
    · exact Or.inr ⟨hge, h.admittedFrom f hf hge⟩
  · obtain ⟨hw, hd⟩ := hend.saturated hs
    exact ⟨hw, hdrops hd⟩
  · obtain ⟨f, hf, heq, hr⟩ := hend.proof id hid
    exact ⟨f, hf, heq, isRefutation_iff.1 hr⟩
  · have hready : s.status ≠ .ready := fun hc => by simp [hc, Status.isFinal] at hs
    rw [Search.seed, if_neg hready]

/-- Zero is a number, and what follows a number is one. -/
def counting : List Derived :=
  [⟨.ofList [.pos ⟨"n", [.const "0"]⟩], none⟩,
    ⟨.ofList [.neg ⟨"n", [.var "x"]⟩, .pos ⟨"n", [.app "s" [.var "x"]]⟩], none⟩]

-- one clause of size three comes in after the seeds, everything larger is dropped
theorem Reached.honest_counting :
    ∃ s, Reached {} counting s ∧ s.limits = { maxGiven := .int 4, maxWeight := .int 3 } ∧
      s.agenda.usable.active = [0, 1, 2] ∧ s.statistics.discarded = 3 ∧
      (s.statistics.given : Int) ≤ 4 ∧
      (∀ f ∈ s.agenda.usable.clauses, f.id = 2 → f.clause.size ≤ 3) ∧
      s.status = .exhausted ∧ s.stoppedBy.isSome = true ∧ ¬ s.proofId.isSome = true ∧
      s.step = { s with fault := none } ∧ s.seed counting = .error .exhausted := by
  let limits : Limits := { maxGiven := .int 4, maxWeight := .int 3 }
  let s : Search := (seedAll { limits } counting).run
  have hseed : Reached {} ([] ++ counting) (seedAll { limits } counting) :=
    (Reached.create limits (some ⟨.smallest, 0, 0⟩) {}).seed rfl
  have hs : Reached {} counting s := hseed.run
  have hstatus : s.status = .exhausted := by decide +kernel
  have hlimits : s.limits = limits := (run_limits _).trans (seedAll_limits rfl counting)
  obtain ⟨hgiven, hclauses, -, hstopped, hproved, -, hend, -⟩ := hs.honest
  obtain ⟨hstep, -, hseeds⟩ := hend (by rw [hstatus]; rfl)
  refine ⟨s, hs, hlimits, by decide +kernel, by decide +kernel, hgiven 4 ?_, fun f hf hid => ?_,
    hstatus, hstopped.2 hstatus, fun hc => ?_, hstep, hstatus ▸ hseeds counting⟩
  · rw [hlimits]
    exact wholeBound?_int 4
  · obtain hseed | ⟨-, -, -, hsize⟩ := hclauses f (Or.inr hf)
    · rw [hid] at hseed
      cases hseed
    · have hle := Limits.admits_int.1 (hlimits ▸ hsize)
      exact Int.ofNat_le.1 hle
  · rw [hproved, hstatus] at hc
    cases hc

end Search

end Elenchus

import Elenchus.Proofs.FinalStates
import Elenchus.Proofs.SearchFaults
import Mathlib.Data.Finset.Card

/-! The counts of a search add up between rounds. -/

namespace Elenchus

/-! ### Usable clauses -/

namespace Store

variable {s : Store} {ids : List Nat}

theorem active_removeAll (ids : List Nat) :
    ∀ id ∈ (ids.foldl remove s).active, id ∈ s.active := by
  induction ids generalizing s with
  | nil => exact fun _ => id
  | cons i ids ih => exact fun id hid => List.mem_of_mem_filter (ih id hid)

/-- Each of some active clauses that are taken out counts for one. -/
theorem length_removeAll (h : s.active.Nodup) (hids : ids.Nodup)
    (hmem : ∀ id ∈ ids, id ∈ s.active) :
    (ids.foldl remove s).active.length + ids.length = s.active.length := by
  induction ids generalizing s with
  | nil => rfl
  | cons id ids ih =>
    obtain ⟨hnew, hids⟩ := List.nodup_cons.1 hids
    obtain ⟨hid, hmem⟩ := List.forall_mem_cons.1 hmem
    have herase : (s.remove id).active = s.active.erase id := (h.erase_eq_filter id).symm
    have hlength : (s.remove id).active.length + 1 = s.active.length := by
      rw [herase, List.length_erase_of_mem hid]
      exact Nat.sub_add_cancel (List.length_pos_of_mem hid)
    have hrest := ih (s := s.remove id) (h.filter _) hids fun j hj => by
      rw [herase, h.mem_erase_iff]
      exact ⟨fun heq => hnew (heq ▸ hj), hmem j hj⟩
    rw [List.foldl_cons, List.length_cons]
    omega

theorem length_activate {f : Filed} (hf : f.id ∉ s.active) :
    (s.activate f).active.length = s.active.length + 1 := by
  rw [activate, if_neg (by simpa using hf), List.length_append, List.length_singleton]

end Store

namespace Search

variable {strategy : Strategy} {seeds ds : List Derived} {s s' : Search} {d : Derived}
  {given : Filed} {i : Nat}

/-- A clause that becomes usable takes the place of those that it replaces. -/
theorem Consistent.length_use (h : s.Consistent []) (hw : s.agenda.waiting[i]? = some given) :
    ((s.taken i given).makeUsable given).agenda.usable.active.length +
      ((s.taken i given).replaced given).length = s.agenda.usable.active.length + 1 := by
  have hsub : ((s.taken i given).replaced given).Sublist s.agenda.usable.active := by
    rw [replaced]
    split
    · exact h.orderly.indexed.backSubsumed_sublist _ _
    · exact List.nil_sublist _
  have hnew : given.id ∉ s.agenda.usable.active :=
    h.remember.fresh given (List.mem_of_getElem? hw)
  have hnodup := h.orderly.indexed.nodup
  have hremove := Store.length_removeAll hnodup (hnodup.sublist hsub) fun id hid => hsub.subset hid
  have hactivate := Store.length_activate (f := given)
    fun hid => hnew (Store.active_removeAll ((s.taken i given).replaced given) _ hid)
  rw [makeUsable_eq_replaced]
  dsimp only
  have hsame : (s.taken i given).agenda.usable = s.agenda.usable := rfl
  rw [hsame]
  omega

/-! ### Balances -/

/-- How many of the seeds come to wait: those before the first that refutes the input, each set of
literals once. -/
def seedsQueued (seeds : List Derived) : Nat :=
  ((seeds.takeWhile fun d => !isRefutation d.clause).map
    fun d => d.clause.literals.toFinset).toFinset.card

/-- One if the clause that refutes the input came after the first `n` ones. -/
def refutedAfter (n : Nat) (s : Search) : Nat := if s.proofId.any (n ≤ ·) then 1 else 0

/-- What came to wait waits or was given. -/
def QueueBalanced (seeds : List Derived) (s : Search) : Prop :=
  seedsQueued seeds + s.statistics.kept = s.statistics.given + s.agenda.waiting.length

/-- What was inferred or given has come to one of the possible ends. -/
def ClausesBalanced (seeds : List Derived) (s : Search) : Prop :=
  s.statistics.generated + s.statistics.given =
    s.statistics.kept + s.statistics.tautologies + s.statistics.forwardSubsumed +
      s.statistics.discarded + s.statistics.backSubsumed + s.agenda.usable.active.length +
      s.refutedAfter seeds.length

theorem length_eraseIdx_add_one (hw : s.agenda.waiting[i]? = some given) :
    (s.agenda.waiting.eraseIdx i).length + 1 = s.agenda.waiting.length := by
  obtain ⟨hlt, -⟩ := List.getElem?_eq_some_iff.1 hw
  rw [List.length_eraseIdx_of_lt hlt]
  omega

theorem Move.queueBalanced (hm : Move s s') (hs : s.status ≠ .ready) (h : s.QueueBalanced seeds) :
    s'.QueueBalanced seeds := by
  rw [QueueBalanced] at h ⊢
  cases hm with
  | aside hv _ =>
    have hkept : s'.statistics.kept = s.statistics.kept :=
      (congrArg (fun s => s.statistics.kept) hv :)
    have hgiven : s'.statistics.given = s.statistics.given :=
      (congrArg (fun s => s.statistics.given) hv :)
    have hagenda : s'.agenda = s.agenda := (congrArg agenda hv :)
    rw [hkept, hgiven, hagenda, h]
  | seed hready _ _ => exact absurd hready hs
  | giveUpTautology hsel _ =>
    have hlength := length_eraseIdx_add_one hsel.waits
    dsimp only [taken, takeGiven]
    omega
  | giveUpSubsumed hsel _ =>
    have hlength := length_eraseIdx_add_one hsel.waits
    dsimp only [taken, takeGiven]
    omega
  | use hsel _ _ =>
    have hlength := length_eraseIdx_add_one hsel.waits
    rw [makeUsable_eq_replaced]
    dsimp only [taken, takeGiven]
    omega
  | keep _ _ _ _ _ _ =>
    dsimp only [enqueue, Agenda.push, generate]
    rw [List.length_append, List.length_singleton]
    omega
  | _ => exact h

theorem refutedAfter_of_none {n : Nat} (h : s.proofId = none) : s.refutedAfter n = 0 := by
  simp [refutedAfter, h]

/-- A move that is no fault keeps the balance. -/
theorem Move.clausesBalanced (hm : Move s s') (hf : s'.fault = none) (hs : s.status ≠ .ready)
    (hc : s.Consistent []) (hend : s.Concluded) (hfiled : seeds.length ≤ s.filed.length)
    (h : s.ClausesBalanced seeds) : s'.ClausesBalanced seeds := by
  rw [ClausesBalanced] at h ⊢
  cases hm with
  | aside hv _ =>
    have heq : s'.view.ClausesBalanced seeds ↔ s.view.ClausesBalanced seeds := by rw [hv]
    exact heq.2 h
  | refuteInput hready _ => exact absurd hready hs
  | giveUpTautology hsel _ =>
    dsimp only [taken, takeGiven, refutedAfter] at h ⊢
    omega
  | giveUpSubsumed hsel _ =>
    dsimp only [taken, takeGiven, refutedAfter] at h ⊢
    omega
  | use hsel _ _ =>
    have hlength := hc.length_use hsel.waits
    rw [makeUsable_eq_replaced] at hlength ⊢
    dsimp only [taken, takeGiven, refutedAfter] at h hlength ⊢
    omega
  | @refute d hsearching _ =>
    have hopen : s.refutedAfter seeds.length = 0 :=
      refutedAfter_of_none (hend.open (by rw [hsearching]; rfl)).2
    have hone : (s.generate.refute d).refutedAfter seeds.length = 1 :=
      if_pos (decide_eq_true hfiled)
    have hstatistics : (s.generate.refute d).statistics = s.generate.statistics := rfl
    have hactive : (s.generate.refute d).agenda.usable.active = s.agenda.usable.active := rfl
    rw [hopen] at h
    rw [hone, hstatistics, hactive]
    dsimp only [generate]
    omega
  | leaveTautology _ _ =>
    dsimp only [generate, refutedAfter] at h ⊢
    omega
  | drop _ _ =>
    dsimp only [generate, Search.drop, refutedAfter] at h ⊢
    omega
  | leaveSubsumed _ _ =>
    dsimp only [generate, refutedAfter] at h ⊢
    omega
  | keep _ _ _ _ _ _ =>
    dsimp only [enqueue, Agenda.push, Store.addToArena, generate, refutedAfter] at h ⊢
    omega
  | abort _ _ => cases hf
  | _ => exact h

/-! ### Rounds -/

/-- The ends of the clauses add up in a search that has begun, and what it takes to keep them so. -/
structure Accounted (seeds : List Derived) (s : Search) : Prop where
  status : s.status ≠ .ready
  consistent : s.Consistent []
  concluded : s.Concluded
  filed : seeds.length ≤ s.filed.length
  clauses : s.ClausesBalanced seeds

theorem Move.accounted (hm : Move s s') (hf : s'.fault = none) (h : s.Accounted seeds) :
    s'.Accounted seeds where
  status := hm.status_ne_ready h.status
  consistent := hm.consistent h.consistent
  concluded := hm.concluded h.concluded
  filed := h.filed.trans hm.filed_extends.length_le
  clauses := hm.clausesBalanced hf h.status h.consistent h.concluded h.filed h.clauses

theorem Accounted.begun (h : s.Accounted seeds) : s.begun.Accounted seeds where
  status := begun_status_ne_ready s
  consistent := h.consistent.begun
  concluded := h.concluded.begun
  filed := by
    rw [begun_eq]
    exact h.filed
  clauses := by
    rw [begun_eq]
    exact h.clauses

theorem Accounted.fail (h : s.Accounted seeds) (fault : SearchFault) :
    (s.fail fault).Accounted seeds where
  status := h.status
  consistent := h.consistent.congr rfl rfl rfl id
  concluded := h.concluded.mono rfl rfl rfl rfl rfl List.prefix_rfl
  filed := h.filed
  clauses := h.clauses

theorem Move.fault_lasts (hm : Move s s') (hf : s'.fault = none) : s.fault = none := by
  cases hm with
  | aside _ hlasts =>
    by_contra hne
    have hsome := hlasts (Option.isSome_iff_ne_none.2 hne)
    rw [hf] at hsome
    cases hsome
  | use _ _ _ =>
    rw [makeUsable_eq_replaced] at hf
    exact hf
  | abort _ _ => cases hf
  | _ => exact hf

/-- Moves that do not end with a fault are none of them a fault. -/
theorem Moves.accounted (hm : Moves s s') (hf : s'.fault = none) (h : s.Accounted seeds) :
    s'.Accounted seeds := by
  induction hm with
  | refl => exact h
  | tail _ hm ih => exact hm.accounted hf (ih (hm.fault_lasts hf))

/-- A round that begins with counts that add up ends with such. -/
theorem Accounted.step (h : s.begun.Accounted seeds) (hd : s.Descends seeds)
    (hseeds : ∀ d ∈ seeds, d.HasLevel) (hl : s.limits.IsProper) : s.step.Accounted seeds := by
  rcases hd.step_fault hseeds hl with hf | ⟨-, fault, heq⟩
  · exact Moves.accounted (step_moves s) hf h
  · exact heq ▸ h.fail fault

/-! ### Input -/

theorem toFinset_eq_iff_alike {c c' : Clause} :
    c.literals.toFinset = c'.literals.toFinset ↔ c.alike c' = true := by
  rw [Clause.alike_iff_sameLiterals, Finset.ext_iff]
  simp only [List.mem_toFinset, Clause.SameLiterals]

/-- The clauses that wait as sets of literals. -/
def waitingSets (s : Search) : Finset (Finset Literal) :=
  (s.agenda.waiting.map fun f => f.clause.literals.toFinset).toFinset

theorem Consistent.card_waitingSets (h : s.Consistent []) :
    s.waitingSets.card = s.agenda.waiting.length := by
  have hnodup : (s.agenda.waiting.map fun f => f.clause.literals.toFinset).Nodup := by
    refine List.pairwise_map.2 (h.orderly.distinct.imp fun hne heq => hne ?_)
    exact toFinset_eq_iff_alike.1 heq
  rw [waitingSets, List.toFinset_card_of_nodup hnodup, List.length_map]

theorem Consistent.mem_waitingSets (h : s.Consistent []) (hq : s.isQueued d.clause = true) :
    d.clause.literals.toFinset ∈ s.waitingSets := by
  obtain ⟨c, hc, halike⟩ := List.any_eq_true.1 hq
  rw [h.queued] at hc
  obtain ⟨f, hf, rfl⟩ := List.mem_map.1 hc
  rw [waitingSets, List.mem_toFinset, List.mem_map]
  exact ⟨f, hf, (toFinset_eq_iff_alike.2 halike).symm⟩

/-- Seeds come to wait up to the first that refutes the input. -/
theorem waitingSets_seedAll (hs : s.status = .ready) (hc : s.Consistent []) (ds : List Derived) :
    (s.seedAll ds).waitingSets = s.waitingSets ∪
      ((ds.takeWhile fun d => !isRefutation d.clause).map
        fun d => d.clause.literals.toFinset).toFinset := by
  induction ds generalizing s with
  | nil => simp [seedAll]
  | cons d ds ih =>
    rw [seedAll]
    split
    · next hr =>
      rw [List.takeWhile_cons_of_neg (by simp [hr])]
      simp [waitingSets, Search.refute, file]
    · next hr =>
      rw [List.takeWhile_cons_of_pos (by simp [hr]), List.map_cons, List.toFinset_cons]
      split
      · next hq =>
        have hfile : (s.file d).2.waitingSets = s.waitingSets := rfl
        have hmem := hc.mem_waitingSets hq
        rw [ih (s := (s.file d).2) hs (hc.file d), hfile, Finset.union_insert,
          Finset.insert_eq_of_mem (Finset.mem_union_left _ hmem)]
      · next hq =>
        have henqueue : (s.enqueue d).waitingSets =
            insert d.clause.literals.toFinset s.waitingSets := by
          simp [waitingSets, Search.enqueue, Agenda.push, Filed.clause, Finset.union_comm]
        rw [ih (s := s.enqueue d) hs ((Move.seed hs hr hq).consistent hc), henqueue,
          Finset.insert_union, Finset.union_insert]

theorem queueBalanced_seedAll (limits : Limits) (selector : Option Selector)
    (around : Surroundings) (strategy : Strategy) (seeds : List Derived) :
    QueueBalanced seeds (seedAll { limits, selector, around, strategy } seeds) := by
  have hreached : Reached strategy seeds (seedAll { limits, selector, around, strategy } seeds) :=
    (Reached.create limits selector around).seed rfl
  have hin := seedAll_takesIn (s := { limits, selector, around, strategy }) rfl seeds
  have hempty : waitingSets { limits, selector, around, strategy } = ∅ := rfl
  have hcard := hreached.consistent.card_waitingSets
  rw [waitingSets_seedAll rfl (consistent_create limits selector around strategy), hempty,
    Finset.empty_union] at hcard
  rw [QueueBalanced, hin.statistics, seedsQueued, hcard]
  exact (Nat.zero_add _).symm

/-- No seed counts as an inferred clause that refutes the input. -/
theorem clausesBalanced_seedAll (limits : Limits) (selector : Option Selector)
    (around : Surroundings) (strategy : Strategy) (seeds : List Derived) :
    ClausesBalanced seeds (seedAll { limits, selector, around, strategy } seeds) := by
  have hreached : Reached strategy seeds (seedAll { limits, selector, around, strategy } seeds) :=
    (Reached.create limits selector around).seed rfl
  have hin := seedAll_takesIn (s := { limits, selector, around, strategy }) rfl seeds
  have hlate :
      (seedAll { limits, selector, around, strategy } seeds).refutedAfter seeds.length = 0 := by
    cases hp : (seedAll { limits, selector, around, strategy } seeds).proofId with
    | none => exact refutedAfter_of_none hp
    | some id =>
      obtain ⟨f, hf, rfl, -⟩ := hreached.concluded.proof id hp
      have hlt := hin.lt_length rfl hf
      rw [refutedAfter, hp, Option.any_some, if_neg]
      simpa using hlt
  rw [ClausesBalanced, hin.statistics, hin.active, hlate]
  rfl

/-! ### Searches -/

theorem Reached.queueBalanced (h : Reached strategy seeds s) : s.QueueBalanced seeds := by
  obtain ⟨limits, selector, around, hs⟩ := h.phase
  have hqueue := queueBalanced_seedAll limits selector around strategy seeds
  rcases hs with rfl | ⟨-, n, rfl⟩
  · exact hqueue
  · refine (iterate_step_of_begun (P := fun s => s.status ≠ .ready ∧ s.QueueBalanced seeds)
      (fun s hs => ⟨begun_status_ne_ready s, ?_⟩)
      (fun _ _ hm hs => ⟨hm.status_ne_ready hs.1, hm.queueBalanced hs.1 hs.2⟩)
      ⟨begun_status_ne_ready _, ?_⟩ n).2 <;> rw [begun_eq]
    · exact hs.2
    · exact hqueue

theorem Reached.clausesBalanced (h : Reached strategy seeds s) (hl : s.limits.IsProper)
    (hseeds : ∀ d ∈ seeds, d.HasLevel) : s.ClausesBalanced seeds := by
  obtain ⟨limits, selector, around, hs⟩ := h.phase
  have hclauses := clausesBalanced_seedAll limits selector around strategy seeds
  rcases hs with rfl | ⟨hready, n, rfl⟩
  · exact hclauses
  · have hreached : Reached strategy seeds (seedAll { limits, selector, around, strategy } seeds) :=
      (Reached.create limits selector around).seed rfl
    obtain ⟨es, -, heq, hall⟩ :=
      (seedAll_takesIn (s := { limits, selector, around, strategy }) rfl seeds).filed
    have hfiled : (seedAll { limits, selector, around, strategy } seeds).filed = seeds :=
      heq.trans (hall hready)
    have hbegun : Accounted seeds (seedAll { limits, selector, around, strategy } seeds).begun := by
      refine ⟨begun_status_ne_ready _, hreached.consistent.begun, hreached.concluded.begun, ?_, ?_⟩
        <;> rw [begun_eq]
      · exact (congrArg List.length hfiled).ge
      · exact hclauses
    rw [iterate_step_limits] at hl
    -- every round starts from such a state, the first one from the input
    have hrounds : Accounted seeds
        (Search.step^[n + 1] (seedAll { limits, selector, around, strategy } seeds)) := by
      clear h
      induction n with
      | zero => exact hbegun.step hreached.descends hseeds hl
      | succ n ih =>
        rw [Function.iterate_succ_apply']
        refine ih.begun.step (hreached.iterate _).descends hseeds ?_
        rwa [iterate_step_limits]
    exact hrounds.clauses

/-- The counts of a search add up in every state between rounds. The seeds that came to wait and the
clauses that were kept are those that were given or still wait. The clauses that were inferred or
given are those that were kept, were tautologies, were subsumed, were dropped by a bound, became
usable and were replaced or are usable, and the one that refutes the input if it was inferred. -/
theorem Reached.counts_add_up (h : Reached strategy seeds s) (hl : s.limits.IsProper)
    (hseeds : ∀ d ∈ seeds, d.HasLevel) :
    seedsQueued seeds + s.statistics.kept = s.statistics.given + s.agenda.waiting.length ∧
    s.statistics.generated + s.statistics.given =
      s.statistics.kept + s.statistics.tautologies + s.statistics.forwardSubsumed +
        s.statistics.discarded + s.statistics.backSubsumed + s.agenda.usable.active.length +
        if s.proofId.any (seeds.length ≤ ·) then 1 else 0 :=
  ⟨h.queueBalanced, h.clausesBalanced hl hseeds⟩

theorem isProper_default : Limits.IsProper {} where
  maxGiven := Or.inr ⟨_, rfl⟩
  maxClauses := Or.inr ⟨_, rfl⟩
  maxSeconds := Or.inl rfl
  maxDepth := Or.inl rfl
  maxClauseSize := Or.inr ⟨_, rfl⟩
  maxWeight := Or.inl rfl

/-- A fact that is given twice, a rule, and the contrary of what follows. -/
def mortality : List Derived :=
  [⟨.ofList [.pos ⟨"man", [.const "socrates"]⟩], none⟩,
    ⟨.ofList [.pos ⟨"man", [.const "socrates"]⟩], none⟩,
    ⟨.ofList [.neg ⟨"man", [.var "x"]⟩, .pos ⟨"mortal", [.var "x"]⟩], none⟩,
    ⟨.ofList [.neg ⟨"mortal", [.const "socrates"]⟩], none⟩]

-- three seeds wait, two clauses are kept, and the seventh clause is an inferred refutation
theorem Reached.counts_add_up_mortality :
    ∃ s, Reached {} mortality s ∧ s.limits.IsProper ∧ (∀ d ∈ mortality, d.HasLevel) ∧
      s.status = .refuted ∧ s.proofId = some 6 ∧ s.statistics.kept = 2 ∧ s.statistics.given = 4 ∧
      seedsQueued mortality + 2 = 4 + s.agenda.waiting.length ∧
      s.statistics.generated + 4 =
        2 + s.statistics.tautologies + s.statistics.forwardSubsumed + s.statistics.discarded +
          s.statistics.backSubsumed + s.agenda.usable.active.length + 1 := by
  let s : Search := (seedAll {} mortality).run
  have hseed : Reached {} ([] ++ mortality) (seedAll {} mortality) :=
    (Reached.create {} (some ⟨.smallest, 0, 0⟩) {}).seed rfl
  have hs : Reached {} mortality s := hseed.run
  have hlimits : s.limits = {} := (run_limits _).trans (seedAll_limits rfl mortality)
  have hlevels : ∀ d ∈ mortality, d.HasLevel := by
    simp only [mortality, List.forall_mem_cons]
    exact ⟨⟨_, rfl⟩, ⟨_, rfl⟩, ⟨_, rfl⟩, ⟨_, rfl⟩, by simp⟩
  have hproof : s.proofId = some 6 := by decide +kernel
  have hkept : s.statistics.kept = 2 := by decide +kernel
  have hgiven : s.statistics.given = 4 := by decide +kernel
  obtain ⟨hqueue, hclauses⟩ := hs.counts_add_up (hlimits ▸ isProper_default) hlevels
  rw [hkept, hgiven] at hqueue hclauses
  rw [hproof, if_pos (by decide)] at hclauses
  exact ⟨s, hs, hlimits ▸ isProper_default, hlevels, by decide +kernel, hproof, hkept, hgiven,
    hqueue, hclauses⟩

end Search

end Elenchus

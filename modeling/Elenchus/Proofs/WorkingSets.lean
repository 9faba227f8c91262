import Elenchus.Proofs.Minimality
import Elenchus.Proofs.SearchMoves

/-! What waits and what is usable in a search: apart from each other, recorded, and reduced. -/

namespace Elenchus

/-- Two clauses with the same literals, in whatever order. -/
def Clause.SameLiterals (c d : Clause) : Prop := ∀ l, l ∈ c.literals ↔ l ∈ d.literals

theorem Clause.alike_iff_sameLiterals {c d : Clause} : c.alike d = true ↔ c.SameLiterals d := by
  refine ⟨fun h l => mem_iff_of_alike h, fun h => alike_iff.2 ⟨?_, fun l => (h l).1⟩⟩
  exact ((List.perm_ext_iff_of_nodup c.nodup d.nodup).2 h).length_eq

/-! ### Agendas -/

namespace Agenda

variable {a : Agenda} {given : Filed} {i : Nat}

/-- The clauses that wait and the usable ones are filed and kept apart. -/
structure Orderly (a : Agenda) : Prop where
  indexed : a.usable.Exact
  filed : ∀ f ∈ a.waiting, a.usable.arena.Files f
  ascending : a.waiting.Pairwise fun f g => f.id < g.id
  distinct : a.waiting.Pairwise fun f g => ¬ f.clause.alike g.clause = true
  apart : ∀ f ∈ a.waiting, ∀ g ∈ a.usable.clauses, ¬ g.clause.alike f.clause = true
  proper : ∀ f, f ∈ a.waiting ∨ f ∈ a.usable.clauses → ¬ Search.isRefutation f.clause = true
  contingent : ∀ f ∈ a.usable.clauses, ¬ f.clause.isTautology = true

theorem orderly_empty : Orderly {} where
  indexed := Store.exact_start {}
  filed := by simp
  ascending := .nil
  distinct := .nil
  apart := by simp
  proper := by simp [Store.clauses]
  contingent := by simp [Store.clauses]

theorem Orderly.file (h : a.Orderly) (d : Derived) :
    Orderly { a with usable := (a.usable.addToArena d).2 } where
  indexed := h.indexed.addToArena d
  filed f hf := (h.filed f hf).add d
  ascending := h.ascending
  distinct := h.distinct
  apart f hf g hg := h.apart f hf g ((h.indexed.mem_clauses_add d).1 hg)
  proper f hf := h.proper f (hf.imp_right (h.indexed.mem_clauses_add d).1)
  contingent f hf := h.contingent f ((h.indexed.mem_clauses_add d).1 hf)

theorem Orderly.push {d : Derived} (h : a.Orderly) (hr : ¬ Search.isRefutation d.clause = true)
    (hw : ∀ f ∈ a.waiting, ¬ f.clause.alike d.clause = true)
    (hu : ∀ g ∈ a.usable.clauses, ¬ g.clause.alike d.clause = true) : (a.push d).2.Orderly := by
  have hfile := h.file d
  refine ⟨hfile.indexed, ?_, ?_, ?_, ?_, ?_, hfile.contingent⟩
  · rintro f hf
    rcases List.mem_append.1 hf with hf | hf
    · exact hfile.filed f hf
    · exact List.mem_singleton.1 hf ▸ Arena.files_add_self _ d
  · refine List.pairwise_append.2 ⟨h.ascending, List.pairwise_singleton .., fun f hf g hg => ?_⟩
    rw [List.mem_singleton.1 hg]
    exact (h.filed f hf).lt_size
  · refine List.pairwise_append.2 ⟨h.distinct, List.pairwise_singleton .., fun f hf g hg => ?_⟩
    rw [List.mem_singleton.1 hg]
    exact hw f hf
  · intro f hf g hg
    rcases List.mem_append.1 hf with hf | hf
    · exact hfile.apart f hf g hg
    · rw [List.mem_singleton.1 hf]
      exact hu g ((h.indexed.mem_clauses_add d).1 hg)
  · rintro f (hf | hf)
    · rcases List.mem_append.1 hf with hf | hf
      · exact h.proper f (Or.inl hf)
      · rw [List.mem_singleton.1 hf]
        exact hr
    · exact hfile.proper f (Or.inr hf)

theorem Orderly.erase (h : a.Orderly) (i : Nat) :
    Orderly { a with waiting := a.waiting.eraseIdx i } where
  indexed := h.indexed
  filed f hf := h.filed f (List.mem_of_mem_eraseIdx hf)
  ascending := h.ascending.eraseIdx i
  distinct := h.distinct.eraseIdx i
  apart f hf := h.apart f (List.mem_of_mem_eraseIdx hf)
  proper f hf := h.proper f (hf.imp_left List.mem_of_mem_eraseIdx)
  contingent := h.contingent

/-- A clause that is taken out is the only one of its kind. -/
theorem Orderly.not_alike (h : a.Orderly) (hi : a.waiting[i]? = some given) :
    ∀ f ∈ a.waiting.eraseIdx i, ¬ given.clause.alike f.clause = true := by
  obtain ⟨u, v, hw, he⟩ := exists_eraseIdx_eq hi
  have hdistinct := h.distinct
  rw [hw, List.pairwise_append, List.pairwise_cons] at hdistinct
  obtain ⟨-, ⟨hafter, -⟩, hbefore⟩ := hdistinct
  intro f hf
  rw [he] at hf
  rcases List.mem_append.1 hf with hf | hf
  · exact fun hc => hbefore f hf given (List.mem_cons_self ..) (Clause.alike_symm hc)
  · exact hafter f hf

/-- The usable clauses change: the given one comes in, and others may have to go. -/
theorem Orderly.use {st : Store} (h : a.Orderly) (hi : a.waiting[i]? = some given)
    (ht : ¬ given.clause.isTautology = true) (hindexed : st.Exact)
    (harena : st.arena = a.usable.arena)
    (hmem : ∀ f ∈ st.clauses, f ∈ a.usable.clauses ∨ f = given) :
    Orderly { usable := st, waiting := a.waiting.eraseIdx i } where
  indexed := hindexed
  filed f hf := harena ▸ (h.erase i).filed f hf
  ascending := (h.erase i).ascending
  distinct := (h.erase i).distinct
  apart f hf g hg := by
    rcases hmem g hg with hg | rfl
    · exact (h.erase i).apart f hf g hg
    · exact h.not_alike hi f hf
  proper f hf := by
    rcases hf with hf | hf
    · exact (h.erase i).proper f (Or.inl hf)
    · rcases hmem f hf with hf | rfl
      · exact h.proper f (Or.inr hf)
      · exact h.proper f (Or.inl (List.mem_of_getElem? hi))
  contingent f hf := by
    rcases hmem f hf with hf | rfl
    · exact h.contingent f hf
    · exact ht

end Agenda

/-! ### Searches -/

namespace Search

variable {strategy : Strategy} {seeds : List Derived} {earlier : List Nat} {s s' : Search}
  {d : Derived} {given : Filed} {i : Nat}

/-- The working sets of a search fit together. `earlier` are the numbers of clauses that were usable
at some time before: none of them waits again, and those that are still usable cover no clause that
has become usable since. -/
structure Consistent (earlier : List Nat) (s : Search) : Prop where
  orderly : s.agenda.Orderly
  queued : s.queued = s.agenda.waiting.map Filed.clause
  untouched : s.status = .ready → s.agenda.usable.active = []
  backward : s.strategy.backwardSubsumption = true → ∀ f ∈ s.agenda.usable.clauses,
    ∀ g ∈ s.agenda.usable.clauses, f.clause.Covers g.clause → f = g
  known : ∀ id ∈ earlier, id < s.agenda.usable.arena.size
  fresh : ∀ f ∈ s.agenda.waiting, f.id ∉ earlier
  forward : ∀ f ∈ s.agenda.usable.clauses, f.id ∈ earlier →
    ∀ g ∈ s.agenda.usable.clauses, g.id ∉ earlier → ¬ f.clause.Covers g.clause

theorem consistent_create (limits : Limits) (selector : Option Selector) (around : Surroundings)
    (strategy : Strategy) :
    Consistent [] { limits, selector, around, strategy } where
  orderly := Agenda.orderly_empty
  queued := rfl
  untouched _ := rfl
  backward := by simp [Store.clauses]
  known := by simp
  fresh := by simp
  forward := by simp

theorem Consistent.congr (h : s.Consistent earlier) (ha : s'.agenda = s.agenda)
    (hq : s'.queued = s.queued) (hb : s'.strategy = s.strategy)
    (hs : s'.status = .ready → s.status = .ready) : s'.Consistent earlier where
  orderly := ha ▸ h.orderly
  queued := by rw [hq, ha, h.queued]
  untouched hr := by rw [ha, h.untouched (hs hr)]
  backward := by
    rw [hb, ha]
    exact h.backward
  known := by
    rw [ha]
    exact h.known
  fresh := by
    rw [ha]
    exact h.fresh
  forward := by
    rw [ha]
    exact h.forward

theorem Consistent.file (h : s.Consistent earlier) (d : Derived) :
    (s.file d).2.Consistent earlier := by
  have hmem : ∀ f, f ∈ (s.file d).2.agenda.usable.clauses ↔ f ∈ s.agenda.usable.clauses :=
    fun f => h.orderly.indexed.mem_clauses_add d
  refine ⟨h.orderly.file d, h.queued, h.untouched, ?_, fun id hid => ?_, h.fresh, ?_⟩
  · simp only [hmem]
    exact h.backward
  · have hsize : (s.file d).2.agenda.usable.arena.size = s.agenda.usable.arena.size + 1 :=
      Array.size_push d
    rw [hsize]
    exact Nat.lt_succ_of_lt (h.known id hid)
  · simp only [hmem]
    exact h.forward

theorem Consistent.refute (h : s.Consistent earlier) (d : Derived) :
    (s.refute d).Consistent earlier :=
  (h.file d).congr rfl rfl rfl fun hs => by cases hs

theorem Consistent.enqueue (h : s.Consistent earlier) (hr : ¬ isRefutation d.clause = true)
    (hq : ¬ s.isQueued d.clause = true)
    (hu : ∀ g ∈ s.agenda.usable.clauses, ¬ g.clause.alike d.clause = true) :
    (s.enqueue d).Consistent earlier := by
  have hfile := h.file d
  have hw : ∀ f ∈ s.agenda.waiting, ¬ f.clause.alike d.clause = true := by
    intro f hf hc
    refine hq (List.any_eq_true.2 ⟨f.clause, ?_, Clause.alike_symm hc⟩)
    rw [h.queued]
    exact List.mem_map_of_mem hf
  refine ⟨h.orderly.push hr hw hu, ?_, h.untouched, hfile.backward, hfile.known, fun f hf => ?_,
    hfile.forward⟩
  · simp [Search.enqueue, Agenda.push, h.queued, Filed.clause]
  · rcases List.mem_append.1 hf with hf | hf
    · exact h.fresh f hf
    · rw [List.mem_singleton.1 hf]
      exact fun hid => Nat.lt_irrefl _ (h.known _ hid)

/-- Only the clause that is taken out leaves the record of what waits. -/
theorem Consistent.queued_taken (h : s.Consistent earlier)
    (hi : s.agenda.waiting[i]? = some given) :
    (s.taken i given).queued = (s.agenda.waiting.eraseIdx i).map Filed.clause := by
  have hother := h.orderly.not_alike hi
  obtain ⟨u, v, hw, he⟩ := exists_eraseIdx_eq hi
  rw [he] at hother ⊢
  have hstays : ∀ fs : List Filed, (∀ f ∈ fs, f ∈ u ++ v) →
      (fs.map Filed.clause).filter (fun c => !given.clause.alike c) = fs.map Filed.clause := by
    intro fs hfs
    refine List.filter_eq_self.2 fun c hc => ?_
    obtain ⟨f, hf, rfl⟩ := List.mem_map.1 hc
    simpa using hother f (hfs f hf)
  have hqueued : (s.taken i given).queued = s.queued.filter fun c => !given.clause.alike c := rfl
  rw [hqueued, h.queued, hw, List.map_append, List.map_cons, List.filter_append, List.filter_cons,
    if_neg (by simp [Clause.alike_self]), hstays u fun f hf => List.mem_append_left _ hf,
    hstays v fun f hf => List.mem_append_right _ hf, List.map_append]

theorem Consistent.taken (h : s.Consistent earlier) (hi : s.agenda.waiting[i]? = some given) :
    (s.taken i given).Consistent earlier :=
  ⟨h.orderly.erase i, h.queued_taken hi, h.untouched, h.backward, h.known,
    fun f hf => h.fresh f (List.mem_of_mem_eraseIdx hf), h.forward⟩

/-- The usable clauses that have to go when the given one becomes usable. -/
def replaced (s : Search) (given : Filed) : List Nat :=
  if s.strategy.backwardSubsumption then
    s.agenda.usable.backSubsumed given.clause (some given.id)
  else []

theorem makeUsable_eq_replaced (s : Search) (given : Filed) :
    s.makeUsable given = { s with
      agenda := { s.agenda with
        usable := ((s.replaced given).foldl Store.remove s.agenda.usable).activate given }
      statistics := { s.statistics with
        backSubsumed := s.statistics.backSubsumed + (s.replaced given).length } } := by
  rw [makeUsable, subsumeBackward, replaced]
  split <;> rfl

theorem makeUsable_frame (s : Search) (given : Filed) :
    (s.makeUsable given).strategy = s.strategy ∧ (s.makeUsable given).queued = s.queued ∧
      (s.makeUsable given).status = s.status ∧
      (s.makeUsable given).agenda.waiting = s.agenda.waiting := by
  rw [makeUsable_eq_replaced]
  exact ⟨rfl, rfl, rfl, rfl⟩

theorem mem_clauses_makeUsable {f : Filed} (hg : s.Files given) :
    f ∈ (s.makeUsable given).agenda.usable.clauses ↔ f = given ∨ f ∈ s.agenda.usable.clauses ∧
      (s.strategy.backwardSubsumption = true → ¬ given.clause.Covers f.clause) := by
  have hfile : ((s.replaced given).foldl Store.remove s.agenda.usable).arena.Files given := by
    rw [Store.remove_arena]
    exact hg
  rw [makeUsable_eq_replaced, Store.mem_clauses_activate hfile, Store.mem_clauses_removeAll,
    or_comm]
  by_cases hsame : f = given
  · simp [hsame]
  · refine or_congr_right (and_congr_right fun hf => ?_)
    have hid : some given.id ≠ some f.id :=
      fun h => hsame ((Store.files_of_mem_clauses hf).unique hg (Option.some.inj h).symm)
    by_cases hb : s.strategy.backwardSubsumption = true
    · simp [replaced, hb, Store.mem_backSubsumed_iff hf, hid]
    · simp [replaced, hb]

theorem Consistent.orderly_use (h : s.Consistent earlier) (hi : s.agenda.waiting[i]? = some given)
    (ht : ¬ given.clause.isTautology = true) :
    ((s.taken i given).makeUsable given).agenda.Orderly := by
  have hfiles : (s.taken i given).Files given :=
    h.orderly.filed given (List.mem_of_getElem? hi)
  have hmem : ∀ f ∈ ((s.taken i given).makeUsable given).agenda.usable.clauses,
      f ∈ s.agenda.usable.clauses ∨ f = given :=
    fun f hf => ((mem_clauses_makeUsable hfiles).1 hf).symm.imp_left And.left
  have harena := makeUsable_arena (s.taken i given) given
  rw [makeUsable_eq_replaced] at hmem harena ⊢
  refine h.orderly.use hi ht ((h.orderly.indexed.removeAll _).activate ?_) harena hmem
  rw [Store.remove_arena]
  exact hfiles

/-- A clause that is neither a tautology nor covered becomes usable. -/
theorem Consistent.use (h : s.Consistent earlier) (hsel : s.Selects i given)
    (ht : ¬ given.clause.isTautology = true)
    (hs : ¬ s.agenda.usable.isSubsumed given.clause = true) :
    ((s.taken i given).makeUsable given).Consistent earlier := by
  have hgiven := List.mem_of_getElem? hsel.waits
  have huncovered : ∀ f ∈ s.agenda.usable.clauses, ¬ f.clause.Covers given.clause :=
    fun f hf hc => hs (Store.isSubsumed_iff.2 ⟨f, hf, hc⟩)
  have hmem : ∀ f, f ∈ ((s.taken i given).makeUsable given).agenda.usable.clauses ↔
      f = given ∨ f ∈ s.agenda.usable.clauses ∧
        (s.strategy.backwardSubsumption = true → ¬ given.clause.Covers f.clause) :=
    fun f => mem_clauses_makeUsable (s := s.taken i given) (h.orderly.filed given hgiven)
  obtain ⟨hstrategy, hqueued, hstatus, hwaiting⟩ := makeUsable_frame (s.taken i given) given
  refine ⟨h.orderly_use hsel.waits ht, ?_, ?_, ?_, ?_, ?_, ?_⟩
  · rw [hqueued, hwaiting]
    exact h.queued_taken hsel.waits
  · rw [hstatus]
    exact fun hr => absurd (hsel.searching.symm.trans hr) (by decide)
  · rw [hstrategy]
    intro hb f hf g hg hc
    rcases (hmem f).1 hf with rfl | ⟨hfold, -⟩
    · rcases (hmem g).1 hg with rfl | ⟨-, hno⟩
      · rfl
      · exact absurd hc (hno hb)
    · rcases (hmem g).1 hg with rfl | ⟨hgold, -⟩
      · exact absurd hc (huncovered f hfold)
      · exact h.backward hb f hfold g hgold hc
  · rw [makeUsable_arena]
    exact h.known
  · rw [hwaiting]
    exact fun f hf => h.fresh f (List.mem_of_mem_eraseIdx hf)
  · intro f hf hearlier g hg hlater
    rcases (hmem f).1 hf with rfl | ⟨hfold, -⟩
    · exact absurd hearlier (h.fresh f hgiven)
    · rcases (hmem g).1 hg with rfl | ⟨hgold, -⟩
      · exact huncovered f hfold
      · exact h.forward f hfold hearlier g hgold hlater

theorem Move.consistent (hm : Move s s') (h : s.Consistent earlier) : s'.Consistent earlier := by
  cases hm with
  | aside hv _ =>
    exact h.congr (congrArg agenda hv :) (congrArg queued hv :) (congrArg Search.strategy hv :)
      fun hs => (congrArg status hv.symm).trans hs
  | file d => exact h.file d
  | seed hs hr hq =>
    refine h.enqueue hr hq fun g hg => ?_
    have hactive := (Store.mem_clauses.1 hg).1
    rw [h.untouched hs] at hactive
    exact absurd hactive List.not_mem_nil
  | refuteInput hs hr => exact h.refute _
  | exhaust hs hk => exact h.congr rfl rfl rfl fun hr => by cases hr
  | saturate hs hw hd => exact h.congr rfl rfl rfl fun hr => by cases hr
  | giveUpTautology hsel ht => exact (h.taken hsel.waits).congr rfl rfl rfl id
  | giveUpSubsumed hsel hs => exact (h.taken hsel.waits).congr rfl rfl rfl id
  | use hsel ht hs => exact h.use hsel ht hs
  | refute hs hr =>
    have hgenerate : s.generate.Consistent earlier := h.congr rfl rfl rfl id
    exact hgenerate.refute _
  | leaveTautology hs ht => exact h.congr rfl rfl rfl id
  | drop hs hl => exact h.congr rfl rfl rfl id
  | leaveSubsumed hs hq => exact h.congr rfl rfl rfl id
  | keep hs hr ht hl hq hu =>
    have hapart : ∀ g ∈ s.agenda.usable.clauses, ¬ g.clause.alike _ = true :=
      fun g hg hc => hu (Store.isSubsumed_iff.2 ⟨g, hg, .of_alike hc⟩)
    exact (h.enqueue hr hq hapart).congr rfl rfl rfl id
  | abort hs fault => exact h.congr rfl rfl rfl id

theorem Consistent.begun (h : s.Consistent earlier) : s.begun.Consistent earlier := by
  rw [begun_eq]
  refine h.congr rfl rfl rfl fun hs => ?_
  dsimp only at hs
  split at hs
  · next hready => exact hready
  · exact hs

theorem Move.strategy_eq (hm : Move s s') : s'.strategy = s.strategy := by
  cases hm with
  | aside hv _ => exact (congrArg Search.strategy hv :)
  | use _ _ _ => exact (makeUsable_frame _ _).1
  | _ => rfl

/-! ### Runs -/

theorem Reached.strategy_eq (h : Reached strategy seeds s) : s.strategy = strategy :=
  h.invariant (fun s hs => by rw [begun_eq]; exact hs) (fun _ _ hm hs => hm.strategy_eq.trans hs)
    fun _ _ _ => rfl

theorem Reached.consistent (h : Reached strategy seeds s) : s.Consistent [] :=
  h.invariant (fun _ => Consistent.begun) (fun _ _ hm hs => hm.consistent hs)
    fun limits selector around => consistent_create limits selector around strategy

/-- From any state on, the clauses that are usable in it are the earlier ones. -/
theorem Consistent.remember (h : s.Consistent []) : s.Consistent s.agenda.usable.active where
  orderly := h.orderly
  queued := h.queued
  untouched := h.untouched
  backward := h.backward
  known := h.orderly.indexed.valid
  fresh f hf hid :=
    h.orderly.apart f hf f (Store.mem_clauses.2 ⟨hid, h.orderly.filed f hf⟩) (Clause.alike_self _)
  forward _ _ _ _ hg hid := absurd (Store.mem_clauses.1 hg).1 hid

theorem Consistent.iterate_step (h : s.Consistent earlier) (n : Nat) :
    (step^[n] s).Consistent earlier :=
  iterate_step_invariant (P := Consistent earlier) (fun _ => Consistent.begun)
    (fun _ _ hm hs => hm.consistent hs) h n

/-- The working sets of a search stay consistent. In every state the clauses that wait are filed
under ascending numbers, have different literals, are the ones recorded as waiting and share their
literals with no usable clause; no usable clause is a tautology; no clause of either kind is empty
or a single answer; no usable clause is covered by one that was usable when it was not yet; and if
subsumption is backward, no usable clause covers another. -/
theorem Reached.working_sets (h : Reached strategy seeds s) :
    (∀ f ∈ s.agenda.waiting, s.Files f) ∧
    (s.agenda.waiting.Pairwise fun f g => f.id < g.id ∧ ¬ f.clause.SameLiterals g.clause) ∧
    s.queued = s.agenda.waiting.map Filed.clause ∧
    (∀ f ∈ s.agenda.waiting, ∀ g ∈ s.agenda.usable.clauses,
      ¬ f.clause.SameLiterals g.clause) ∧
    (∀ g ∈ s.agenda.usable.clauses, ∀ l ∈ g.clause.literals, l.negate ∉ g.clause.literals) ∧
    (∀ f, f ∈ s.agenda.waiting ∨ f ∈ s.agenda.usable.clauses →
      f.clause.literals ≠ [] ∧ ∀ l, f.clause.literals = [l] → l.isAnswer = false) ∧
    (∀ n, ∀ f ∈ (Search.step^[n] s).agenda.usable.clauses,
      ∀ g ∈ (Search.step^[n] s).agenda.usable.clauses, f.id ∈ s.agenda.usable.active →
        g.id ∉ s.agenda.usable.active → ¬ f.clause.Covers g.clause) ∧
    (strategy.backwardSubsumption = true → s.agenda.usable.Minimal) := by
  have hs := h.consistent
  refine ⟨hs.orderly.filed, ?_, hs.queued, fun f hf g hg hc => ?_, fun g hg l hl hn => ?_,
    fun f hf => ?_, fun n f hf g hg hid hid' => ?_, fun hb => ⟨hs.orderly.indexed.nodup, ?_⟩⟩
  · refine hs.orderly.ascending.imp₂ (fun f g hlt hne => ⟨hlt, ?_⟩) hs.orderly.distinct
    rwa [← Clause.alike_iff_sameLiterals]
  · exact hs.orderly.apart f hf g hg (Clause.alike_iff_sameLiterals.2 fun l => (hc l).symm)
  · exact hs.orderly.contingent g hg (Clause.isTautology_iff.2 ⟨l, hl, hn⟩)
  · have hproper := hs.orderly.proper f hf
    rw [isRefutation_iff, not_or] at hproper
    refine ⟨hproper.1, fun l hl => ?_⟩
    by_contra hans
    exact hproper.2 ⟨l, hl, by simpa using hans⟩
  · exact (hs.remember.iterate_step n).forward f hf hid g hg hid'
  · exact hs.backward (h.strategy_eq ▸ hb)

/-- A fact, and two clauses that give a more general one. -/
def generalized : List Derived :=
  [⟨.ofList [.pos ⟨"p", [.const "a"]⟩], none⟩, ⟨.ofList [.pos ⟨"r", [.var "x"]⟩], none⟩,
    ⟨.ofList [.neg ⟨"r", [.var "x"]⟩, .pos ⟨"p", [.var "x"]⟩], none⟩]

-- in the fourth round the new fact comes in and takes out two clauses that it covers
theorem Reached.working_sets_generalized :
    ∃ s, Reached {} generalized s ∧ s.agenda.waiting.map Filed.id = [3] ∧
      s.agenda.usable.active = [0, 1, 2] ∧ s.step.agenda.usable.active = [1, 3] ∧
      s.queued = s.agenda.waiting.map Filed.clause ∧ s.agenda.usable.Minimal ∧
      ∀ f ∈ s.step.agenda.usable.clauses, ∀ g ∈ s.step.agenda.usable.clauses,
        f.id = 1 → g.id = 3 → ¬ f.clause.Covers g.clause := by
  let s : Search := (({} : Search).seedAll generalized).step.step.step
  have hseed : Reached {} ([] ++ generalized) (({} : Search).seedAll generalized) :=
    (Reached.create {} (some ⟨.smallest, 0, 0⟩) {}).seed rfl
  have hs : Reached {} generalized s := hseed.step.step.step
  have hactive : s.agenda.usable.active = [0, 1, 2] := by decide +kernel
  obtain ⟨-, -, hqueued, -, -, -, hforward, hminimal⟩ := hs.working_sets
  refine ⟨s, hs, by decide +kernel, hactive, by decide +kernel, hqueued, hminimal rfl,
    fun f hf g hg hid hid' => hforward 1 f hf g hg ?_ ?_⟩
  · simp [hactive, hid]
  · simp [hactive, hid']

end Search

end Elenchus

import Elenchus.Proofs.Lifting
import Elenchus.Proofs.SearchHistory

/-! What a search that runs dry has covered: its usable clauses are closed and have a structure. -/

namespace Elenchus

open Inference Clause

/-! ### Selection -/

theorem smallestFrom_lt {n : Nat} {best : Nat × Filed} {fs : List (Filed × Nat)} (hb : best.1 < n)
    (hfs : ∀ p ∈ fs, p.2 < n) : smallestFrom best fs < n := by
  induction fs generalizing best with
  | nil => exact hb
  | cons p fs ih =>
    obtain ⟨f, i⟩ := p
    rw [smallestFrom]
    refine ih ?_ fun q hq => hfs q (List.mem_cons_of_mem _ hq)
    split
    · exact hfs (f, i) (List.mem_cons_self ..)
    · exact hb

theorem exists_smallest (f : Filed) (fs : List Filed) :
    ∃ i, smallest? (f :: fs) = some i ∧ i < (f :: fs).length := by
  refine ⟨_, rfl, smallestFrom_lt (Nat.succ_pos _) fun p hp => ?_⟩
  have := (List.mem_zipIdx hp).2.1
  simp only [List.length_cons]
  omega

/-- As long as clauses wait, one of them is selected. -/
theorem Selector.exists_selected (selector : Selector) {waiting : List Filed} (h : waiting ≠ []) :
    ∃ i, (selector.run waiting).1 = some i ∧ i < waiting.length := by
  obtain ⟨f, fs, rfl⟩ := List.exists_cons_of_ne_nil h
  have hselect : ∃ i, (selector.select (f :: fs)).1 = some i ∧ i < (f :: fs).length := by
    rw [select]
    split
    · exact exists_smallest f fs
    · exact ⟨0, rfl, Nat.succ_pos _⟩
    · rw [if_neg (by simp)]
      split
      · exact ⟨0, rfl, Nat.succ_pos _⟩
      · exact exists_smallest f fs
  obtain ⟨i, hi, hlt⟩ := hselect
  refine ⟨i, ?_, hlt⟩
  rw [run]
  generalize selector.select (f :: fs) = out at hi
  obtain ⟨o, next⟩ := out
  obtain rfl : o = some i := hi
  rfl

namespace Search

variable {premises : List Derived} {s s' : Search} {d : Derived} {ds : List Derived} {given : Filed}
  {c : Clause} {factoring : Bool}

/-! ### Keeping clauses -/

def Usable (s : Search) (c : Clause) : Prop := ∃ f ∈ s.agenda.usable.clauses, f.clause = c

/-- The clause is usable or waits. -/
def Live (s : Search) (c : Clause) : Prop :=
  ∃ f, (f ∈ s.agenda.usable.clauses ∨ f ∈ s.agenda.waiting) ∧ f.clause = c

/-- No clause has been dropped, and there is neither a fault nor a refutation. -/
structure Clean (s : Search) : Prop where
  fault : s.fault = none
  status : s.status ≠ .refuted
  dropped : s.droppedBy = none

/-- The index is complete, what counts as queued waits, and there is no refutation among the
clauses. -/
structure Tracked (s : Search) : Prop where
  indexed : s.agenda.usable.Exact
  queued : ∀ c ∈ s.queued, ∃ f ∈ s.agenda.waiting, f.clause.alike c = true
  unrefuted : ∀ c, s.Live c → isRefutation c = false

/-- Clauses have come to those that wait, and usable clauses have stayed as they were. -/
structure Keeps (s s' : Search) : Prop where
  tracked : s'.Tracked
  usable : ∀ f, f ∈ s'.agenda.usable.clauses ↔ f ∈ s.agenda.usable.clauses
  waiting : ∀ f ∈ s.agenda.waiting, f ∈ s'.agenda.waiting
  strategy : s'.strategy = s.strategy
  status : s'.status = s.status ∨ s'.status = .refuted
  clean : s'.Clean → s.Clean

theorem Keeps.refl (h : s.Tracked) : s.Keeps s :=
  ⟨h, fun _ => Iff.rfl, fun _ hf => hf, rfl, Or.inl rfl, id⟩

theorem Keeps.trans {s'' : Search} (h : s.Keeps s') (h' : s'.Keeps s'') : s.Keeps s'' where
  tracked := h'.tracked
  usable f := (h'.usable f).trans (h.usable f)
  waiting f hf := h'.waiting f (h.waiting f hf)
  strategy := h'.strategy.trans h.strategy
  status := h'.status.elim (fun he => he ▸ h.status) Or.inr
  clean hc := h.clean (h'.clean hc)

theorem Keeps.live (h : s.Keeps s') (hc : s.Live c) : s'.Live c := by
  obtain ⟨f, hf, rfl⟩ := hc
  exact ⟨f, hf.imp (h.usable f).2 (h.waiting f), rfl⟩

theorem Keeps.redundant (h : s.Keeps s') (hc : Redundant s.Live c) : Redundant s'.Live c :=
  hc.mono fun _ hl => redundant_of_mem (h.live hl)

theorem live_congr (ha : s'.agenda = s.agenda) : s'.Live = s.Live := by
  funext c
  simp only [Live, ha]

theorem Tracked.congr (h : s.Tracked) (ha : s'.agenda = s.agenda) (hq : s'.queued = s.queued) :
    s'.Tracked := by
  refine ⟨ha ▸ h.indexed, ?_, live_congr ha ▸ h.unrefuted⟩
  rw [ha, hq]
  exact h.queued

/-- A change of counts and reasons only. -/
theorem Tracked.keeps (h : s.Tracked) (ha : s'.agenda = s.agenda) (hq : s'.queued = s.queued)
    (hst : s'.strategy = s.strategy) (hs : s'.status = s.status) (hc : s'.Clean → s.Clean) :
    s.Keeps s' where
  tracked := h.congr ha hq
  usable f := by rw [ha]
  waiting f hf := by rwa [ha]
  strategy := hst
  status := Or.inl hs
  clean := hc

theorem Tracked.file (h : s.Tracked) (d : Derived) : s.Keeps (s.file d).2 where
  tracked :=
    ⟨h.indexed.addToArena d, h.queued, fun c ⟨f, hf, he⟩ =>
      h.unrefuted c ⟨f, hf.imp_left (h.indexed.mem_clauses_add d).1, he⟩⟩
  usable _ := h.indexed.mem_clauses_add d
  waiting _ hf := hf
  strategy := rfl
  status := Or.inl rfl
  clean hc := ⟨hc.fault, hc.status, hc.dropped⟩

theorem Tracked.refute (h : s.Tracked) (d : Derived) : s.Keeps (s.refute d) where
  tracked := (h.file d).tracked.congr rfl rfl
  usable := (h.file d).usable
  waiting _ hf := hf
  strategy := rfl
  status := Or.inr rfl
  clean hc := absurd rfl hc.status

theorem Tracked.enqueue (h : s.Tracked) (hd : isRefutation d.clause = false) :
    s.Keeps (s.enqueue d) where
  tracked := by
    refine ⟨h.indexed.addToArena d, fun c hc => ?_, fun c hc => ?_⟩
    · rcases List.mem_append.1 hc with hc | hc
      · obtain ⟨f, hf, ha⟩ := h.queued c hc
        exact ⟨f, List.mem_append_left _ hf, ha⟩
      · rw [List.mem_singleton.1 hc]
        exact ⟨_, List.mem_append_right _ (List.mem_singleton_self _), alike_self _⟩
    · obtain ⟨f, hf, rfl⟩ := hc
      rcases hf with hf | hf
      · exact h.unrefuted _ ⟨f, Or.inl ((h.indexed.mem_clauses_add d).1 hf), rfl⟩
      · rcases List.mem_append.1 hf with hf | hf
        · exact h.unrefuted _ ⟨f, Or.inr hf, rfl⟩
        · rw [List.mem_singleton.1 hf]
          exact hd
  usable _ := h.indexed.mem_clauses_add d
  waiting _ hf := List.mem_append_left _ hf
  strategy := rfl
  status := Or.inl rfl
  clean hc := ⟨hc.fault, hc.status, hc.dropped⟩

theorem live_enqueue (s : Search) (d : Derived) : (s.enqueue d).Live d.clause :=
  ⟨_, Or.inr (List.mem_append_right _ (List.mem_singleton_self _)), rfl⟩

/-- A clause that counts as queued is covered by one that waits. -/
theorem Tracked.redundant_of_isQueued (h : s.Tracked) (hc : s.isQueued c = true) :
    Redundant s.Live c := by
  simp only [isQueued, List.any_eq_true] at hc
  obtain ⟨e, he, ha⟩ := hc
  obtain ⟨f, hf, hfe⟩ := h.queued e he
  refine Or.inr ⟨f.clause, ⟨f, Or.inr hf, rfl⟩, ?_⟩
  exact (Covers.of_alike hfe).trans (.of_alike (alike_symm ha))

theorem redundant_of_isSubsumed (hc : s.agenda.usable.isSubsumed c = true) :
    Redundant s.Live c := by
  obtain ⟨f, hf, hcov⟩ := Store.isSubsumed_iff.1 hc
  exact Or.inr ⟨f.clause, ⟨f, Or.inl hf, rfl⟩, hcov⟩

theorem Tracked.shorten (h : s.Tracked) (d : Derived) :
    s.Keeps (s.shorten d).2 ∧ (s.shorten d).1.clause.Covers d.clause := by
  rw [Search.shorten]
  split
  · rcases simplify_cases s.agenda.usable d s.renamer with heq | ⟨-, heq⟩ <;> rw [heq]
    · exact ⟨h.keeps rfl rfl rfl rfl fun hc => ⟨hc.fault, hc.status, hc.dropped⟩, .refl _⟩
    · have hk := h.file d
      dsimp only
      split
      · exact ⟨hk.trans (hk.tracked.keeps rfl rfl rfl rfl fun hc =>
          ⟨hc.fault, hc.status, hc.dropped⟩), unitDeleted_covers _ _⟩
      · exact ⟨hk.trans (hk.tracked.keeps rfl rfl rfl rfl fun hc =>
          absurd hc.fault (Option.some_ne_none _)), .refl _⟩
  · exact ⟨.refl h, .refl _⟩

theorem Tracked.keepShortened (h : s.Tracked) (d : Derived) :
    s.Keeps (s.keepShortened d) ∧
      ((s.keepShortened d).Clean → Redundant (s.keepShortened d).Live d.clause) := by
  rw [Search.keepShortened]
  split
  · exact ⟨h.refute d, fun hc => absurd rfl hc.status⟩
  · next hr =>
    split
    · next ht =>
      exact ⟨h.keeps rfl rfl rfl rfl fun hc => ⟨hc.fault, hc.status, hc.dropped⟩,
        fun _ => Or.inl ht⟩
    · split
      · have hfault : ∀ {k}, ¬ (s.fail k).Clean := fun hc => Option.some_ne_none _ hc.fault
        exact ⟨h.keeps rfl rfl rfl rfl fun hc => (hfault hc).elim, fun hc => (hfault hc).elim⟩
      · have hdrop : ∀ {k}, ¬ (s.drop k).Clean := fun hc => by
          have := hc.dropped
          simp [Search.drop] at this
        exact ⟨h.keeps rfl rfl rfl rfl fun hc => (hdrop hc).elim, fun hc => (hdrop hc).elim⟩
      · split
        · next hsub =>
          refine ⟨h.keeps rfl rfl rfl rfl fun hc => ⟨hc.fault, hc.status, hc.dropped⟩, fun _ => ?_⟩
          rcases Bool.or_eq_true _ _ ▸ hsub with hq | hq
          · exact h.redundant_of_isQueued hq
          · exact redundant_of_isSubsumed hq
        · have hk := h.enqueue (Bool.eq_false_of_not_eq_true hr)
          refine ⟨hk.trans (hk.tracked.keeps rfl rfl rfl rfl fun hc =>
            ⟨hc.fault, hc.status, hc.dropped⟩), fun _ => redundant_of_mem (live_enqueue s d)⟩

theorem Tracked.keep (h : s.Tracked) (d : Derived) :
    s.Keeps (s.keep d) ∧ ((s.keep d).Clean → Redundant (s.keep d).Live d.clause) := by
  let s₁ : Search := { s with
    statistics := { s.statistics with generated := s.statistics.generated + 1 } }
  have h₁ : s.Keeps s₁ := h.keeps rfl rfl rfl rfl fun hc => ⟨hc.fault, hc.status, hc.dropped⟩
  obtain ⟨h₂, hcov⟩ := h₁.tracked.shorten d
  rw [Search.keep]
  dsimp only
  split
  · next hf =>
    refine ⟨h₁.trans h₂, fun hc => ?_⟩
    rw [hc.fault] at hf
    simp at hf
  · obtain ⟨h₃, hred⟩ := h₂.tracked.keepShortened (s₁.shorten d).1
    exact ⟨(h₁.trans h₂).trans h₃, fun hc => (hred hc).of_covers hcov⟩

theorem Tracked.keepAll (h : s.Tracked) (ds : List Derived) :
    s.Keeps (s.keepAll ds) ∧
      ((s.keepAll ds).Clean → ∀ d ∈ ds, Redundant (s.keepAll ds).Live d.clause) := by
  induction ds generalizing s with
  | nil => exact ⟨.refl h, by simp⟩
  | cons d ds ih =>
    obtain ⟨h₁, hd⟩ := h.keep d
    rw [Search.keepAll]
    split
    · next hstop =>
      refine ⟨h₁, fun hc => ?_⟩
      simp only [Bool.or_eq_true, decide_eq_true_eq, hc.fault, Option.isSome_none, or_false,
        Bool.false_eq_true] at hstop
      exact absurd hstop hc.status
    · obtain ⟨h₂, hds⟩ := ih h₁.tracked
      refine ⟨h₁.trans h₂, fun hc e he => ?_⟩
      rcases List.mem_cons.1 he with rfl | he
      · exact h₂.redundant (hd (h₂.clean hc))
      · exact hds hc e he

theorem Tracked.seedAll (h : s.Tracked) (ds : List Derived) :
    s.Keeps (s.seedAll ds) ∧ ((s.seedAll ds).status ≠ .refuted →
      ∀ d ∈ ds, Redundant (s.seedAll ds).Live d.clause) := by
  induction ds generalizing s with
  | nil => exact ⟨.refl h, by simp⟩
  | cons d ds ih =>
    rw [Search.seedAll]
    split
    · exact ⟨h.refute d, fun hr => absurd rfl hr⟩
    · next hr =>
      -- the clause is redundant from now on, and stays so
      have later : ∀ {s₁ : Search}, s.Keeps s₁ → Redundant s₁.Live d.clause →
          s.Keeps (s₁.seedAll ds) ∧ ((s₁.seedAll ds).status ≠ .refuted →
            ∀ e ∈ d :: ds, Redundant (s₁.seedAll ds).Live e.clause) := by
        intro s₁ h₁ hd
        obtain ⟨h₂, hds⟩ := ih h₁.tracked
        refine ⟨h₁.trans h₂, fun hr e he => ?_⟩
        rcases List.mem_cons.1 he with rfl | he
        · exact h₂.redundant hd
        · exact hds hr e he
      split
      · next hq => exact later (h.file d) ((h.file d).redundant (h.redundant_of_isQueued hq))
      · have hnew := redundant_of_mem (live_enqueue s d)
        exact later (h.enqueue (Bool.eq_false_of_not_eq_true hr)) hnew

/-! ### Rounds -/

/-- Premises, resolvents of the clauses `U` and, if wanted, their factors are all redundant. -/
structure Closed (factoring : Bool) (premises : List Derived) (U : Filed → Prop)
    (L : Clause → Prop) : Prop where
  premises : ∀ d ∈ premises, Redundant L d.clause
  factors : factoring = true → ∀ f, U f → FactorsIn L f.clause
  resolvents : ∀ f g, U f → U g → ResolvesIn L f.clause g.clause

theorem Closed.mono {U U' : Filed → Prop} {L L' : Clause → Prop} (h : Closed factoring premises U L)
    (hU : ∀ f, U' f → U f) (hL : ∀ c, L c → Redundant L' c) : Closed factoring premises U' L' :=
  ⟨fun d hd => (h.premises d hd).mono hL, fun hf f hu => (h.factors hf f (hU f hu)).mono hL,
    fun f g hf hg => (h.resolvents f g (hU f hf) (hU g hg)).mono hL⟩

theorem Closed.insert {U U' : Filed → Prop} {L : Clause → Prop} (h : Closed factoring premises U L)
    (hU : ∀ f, U' f → U f ∨ f = given) (hfac : factoring = true → FactorsIn L given.clause)
    (hres : ∀ f, U' f → ResolvesIn L given.clause f.clause ∧ ResolvesIn L f.clause given.clause) :
    Closed factoring premises U' L := by
  refine ⟨h.premises, fun hf f hu => ?_, fun f g hf hg => ?_⟩
  · rcases hU f hu with hu | rfl
    · exact h.factors hf f hu
    · exact hfac hf
  · rcases hU f hf with hf' | rfl
    · rcases hU g hg with hg' | rfl
      · exact h.resolvents f g hf' hg'
      · exact (hres f hf).2
    · exact (hres g hg).1

/-- Everything that is called for by the usable clauses is covered by the clauses at hand. -/
def IsClosed (s : Search) (premises : List Derived) : Prop :=
  Closed s.strategy.factoring premises (· ∈ s.agenda.usable.clauses) s.Live

theorem IsClosed.congr (h : s.IsClosed premises) (ha : s'.agenda = s.agenda)
    (hst : s'.strategy = s.strategy) : s'.IsClosed premises := by
  rw [IsClosed, live_congr ha, ha, hst]
  exact h

theorem mem_infer_of_factors (h : d ∈ s.factorsOf given) : d ∈ (s.infer given).1 :=
  List.mem_append_left _ (List.mem_append_left _ h)

theorem mem_infer_of_resolvents
    (h : d ∈ (Inference.resolvents s.strategy.occursCheck s.agenda.usable given s.renamer).1) :
    d ∈ (s.infer given).1 :=
  List.mem_append_left _ (List.mem_append_right _ h)

/-- A clause is taken out of the queue. It is the only one that may be missed. -/
theorem Tracked.takeGiven {i : Nat} {agenda : Agenda} (h : s.Tracked) (premises : List Derived)
    (ht : s.agenda.take? i = some (given, agenda)) :
    (s.takeGiven given agenda).Tracked ∧ isRefutation given.clause = false ∧
      (s.IsClosed premises → Closed s.strategy.factoring premises
        (· ∈ (s.takeGiven given agenda).agenda.usable.clauses)
        fun c => (s.takeGiven given agenda).Live c ∨ c = given.clause) := by
  obtain ⟨f, hf, he⟩ := Option.map_eq_some_iff.1 ht
  obtain ⟨rfl, rfl⟩ := Prod.mk.inj he
  have hother : ∀ g ∈ s.agenda.waiting, g ∈ s.agenda.waiting.eraseIdx i ∨ g = f := by
    intro g hg
    obtain ⟨j, hj⟩ := List.mem_iff_getElem?.1 hg
    by_cases hji : j = i
    · exact Or.inr (Option.some.inj (hj.symm.trans (hji ▸ hf)))
    · exact Or.inl (List.mem_eraseIdx_iff_getElem?.2 ⟨j, hji, hj⟩)
  refine ⟨⟨h.indexed, fun c hc => ?_, fun c hc => ?_⟩, ?_, fun hcl => ?_⟩
  · obtain ⟨hc, hne⟩ := List.mem_filter.1 hc
    obtain ⟨g, hg, ha⟩ := h.queued c hc
    refine ⟨g, (hother g hg).resolve_right ?_, ha⟩
    rintro rfl
    simp [ha] at hne
  · obtain ⟨g, hg, rfl⟩ := hc
    exact h.unrefuted _ ⟨g, hg.imp_right List.mem_of_mem_eraseIdx, rfl⟩
  · exact h.unrefuted _ ⟨f, Or.inr (List.mem_of_getElem? hf), rfl⟩
  · refine hcl.mono (fun _ hg => hg) fun c hc => redundant_of_mem ?_
    obtain ⟨g, hg | hg, rfl⟩ := hc
    · exact Or.inl ⟨g, Or.inl hg, rfl⟩
    · rcases hother g hg with hg | rfl
      · exact Or.inl ⟨g, Or.inr hg, rfl⟩
      · exact Or.inr rfl

/-- The usable clauses are those of before and the given one, up to covered ones. -/
theorem Tracked.makeUsable (h : s.Tracked) (hg : s.Files given)
    (hne : isRefutation given.clause = false) :
    (s.makeUsable given).Tracked ∧
      (∀ f, f ∈ (s.makeUsable given).agenda.usable.clauses →
        f ∈ s.agenda.usable.clauses ∨ f = given) ∧
      ∀ c, s.Live c ∨ c = given.clause → Redundant (s.makeUsable given).Live c := by
  obtain ⟨ids, statistics, hids, heq⟩ := makeUsable_eq s given
  rw [heq]
  have hfile : (ids.foldl Store.remove s.agenda.usable).arena.Files given := by
    rw [Store.remove_arena]
    exact hg
  have hmem : ∀ f, f ∈ ((ids.foldl Store.remove s.agenda.usable).activate given).clauses ↔
      (f ∈ s.agenda.usable.clauses ∧ f.id ∉ ids) ∨ f = given := fun f => by
    rw [Store.mem_clauses_activate hfile, Store.mem_clauses_removeAll]
  have hold : ∀ f, f ∈ ((ids.foldl Store.remove s.agenda.usable).activate given).clauses →
      f ∈ s.agenda.usable.clauses ∨ f = given := fun f hf => ((hmem f).1 hf).imp_left And.left
  refine ⟨⟨(h.indexed.removeAll ids).activate hfile, h.queued, fun c hc => ?_⟩, hold,
    fun c hc => ?_⟩
  · obtain ⟨f, hf | hf, rfl⟩ := hc
    · rcases hold f hf with hf | rfl
      · exact h.unrefuted _ ⟨f, Or.inl hf, rfl⟩
      · exact hne
    · exact h.unrefuted _ ⟨f, Or.inr hf, rfl⟩
  · rcases hc with ⟨f, hf | hf, rfl⟩ | rfl
    · by_cases hb : f.id ∈ ids
      · exact Or.inr ⟨given.clause, ⟨given, Or.inl ((hmem given).2 (Or.inr rfl)), rfl⟩,
          ((Store.mem_backSubsumed_iff hf).1 (hids _ hb)).2⟩
      · exact redundant_of_mem ⟨f, Or.inl ((hmem f).2 (Or.inl ⟨hf, hb⟩)), rfl⟩
    · exact redundant_of_mem ⟨f, Or.inr hf, rfl⟩
    · exact redundant_of_mem ⟨given, Or.inl ((hmem given).2 (Or.inr rfl)), rfl⟩

/-- All factors and resolvents of the given clause are kept, so it can join the usable ones. -/
theorem Sound.closed_of_infer (h : s.Sound premises) (hg : s.Files given) (hs : s.Tracked)
    {U : Filed → Prop} {L : Clause → Prop}
    (hU : ∀ f, f ∈ s.agenda.usable.clauses → U f ∨ f = given)
    (hcl : Closed s.strategy.factoring premises U L)
    (hL : ∀ d ∈ (s.infer given).1, Redundant L d.clause) :
    Closed s.strategy.factoring premises (· ∈ s.agenda.usable.clauses) L := by
  refine hcl.insert hU
    (fun hfac => factorsIn_of_factors fun d hd => hL d (mem_infer_of_factors ?_))
    fun f hf => resolvesIn_of_resolvents hs.indexed (h.clear given hg) hf fun d hd =>
      hL d (mem_infer_of_resolvents ?_)
  · rwa [factorsOf, if_pos hfac, h.occursCheck]
  · rwa [h.occursCheck]

/-- What the work on a given clause comes to, if all that is called for is covered with it. -/
structure Advances (premises : List Derived) (given : Filed) (s s' : Search) : Prop where
  tracked : s'.Tracked
  strategy : s'.strategy = s.strategy
  status : s'.status = s.status ∨ s'.status = .refuted
  clean : s'.Clean → s.Clean
  closed : s'.Clean → Closed s.strategy.factoring premises (· ∈ s.agenda.usable.clauses)
    (fun c => s.Live c ∨ c = given.clause) → s'.IsClosed premises

/-- A given clause that is redundant is given up, and only counts change. -/
theorem Tracked.advances_of_redundant (h : s.Tracked) (hred : Redundant s.Live given.clause)
    (ha : s'.agenda = s.agenda) (hq : s'.queued = s.queued) (hst : s'.strategy = s.strategy)
    (hs : s'.status = s.status) (hc : s'.Clean → s.Clean) : Advances premises given s s' := by
  refine ⟨h.congr ha hq, hst, Or.inl hs, hc, fun _ hcl => IsClosed.congr ?_ ha hst⟩
  refine hcl.mono (fun _ hf => hf) fun c hc => ?_
  rcases hc with hc | rfl
  · exact redundant_of_mem hc
  · exact hred

theorem Sound.advances_process (h : s.Sound premises) (hs : s.Tracked) (hg : s.Files given)
    (hne : isRefutation given.clause = false) : Advances premises given s (s.process given) := by
  by_cases ht : given.clause.isTautology = true
  · rw [Search.process, if_pos ht]
    exact hs.advances_of_redundant (Or.inl ht) rfl rfl rfl rfl
      fun hc => ⟨hc.fault, hc.status, hc.dropped⟩
  · by_cases hsub : s.agenda.usable.isSubsumed given.clause = true
    · rw [Search.process, if_neg ht, if_pos hsub]
      exact hs.advances_of_redundant (redundant_of_isSubsumed hsub) rfl rfl rfl rfl
        fun hc => ⟨hc.fault, hc.status, hc.dropped⟩
    · obtain ⟨ids, statistics, -, heq⟩ := makeUsable_eq s given
      obtain ⟨h₁, e₁⟩ := h.makeUsable given
      obtain ⟨ht₁, hU, hL⟩ := hs.makeUsable hg hne
      have hst : (s.makeUsable given).strategy = s.strategy := by rw [heq]
      have hstatus : (s.makeUsable given).status = s.status := by rw [heq]
      have hclean : (s.makeUsable given).Clean → s.Clean := by
        rw [heq]
        exact fun hc => ⟨hc.fault, hc.status, hc.dropped⟩
      rw [process_eq s given ht hsub]
      generalize s.makeUsable given = s₁ at *
      split
      · have hinfer : s₁.Keeps (s₁.infer given).2 :=
          ht₁.keeps rfl rfl rfl rfl fun hc => ⟨hc.fault, hc.status, hc.dropped⟩
        obtain ⟨hk, hds⟩ := hinfer.tracked.keepAll (s₁.infer given).1
        have hkeeps := hinfer.trans hk
        refine ⟨hkeeps.tracked, hkeeps.strategy.trans hst, hkeeps.status.imp_left (·.trans hstatus),
          fun hc => hclean (hkeeps.clean hc), fun hc hcl => ?_⟩
        have hcl₁ := hcl.mono (fun _ hf => hf) fun c hc => hkeeps.redundant (hL c hc)
        rw [← hst] at hcl₁
        have hclosed := h₁.closed_of_infer (e₁.files given hg) ht₁ hU hcl₁ (hds hc)
        rw [IsClosed, hkeeps.strategy]
        exact hclosed.mono (fun f hf => (hkeeps.usable f).1 hf) fun _ hc => redundant_of_mem hc
      · obtain ⟨renamer, statistics, hfail⟩ := failToInfer_eq s₁ given
        rw [hfail]
        exact ⟨ht₁.congr rfl rfl, hst, Or.inl hstatus,
          fun hc => absurd hc.fault (Option.some_ne_none _),
          fun hc => absurd hc.fault (Option.some_ne_none _)⟩

/-! ### Runs -/

/-- What holds throughout a search: unless something was left out the clauses are closed, and a
search that calls itself saturated has nothing left to do. -/
structure Complete (factoring : Bool) (premises : List Derived) (s : Search) : Prop where
  sound : s.Sound premises
  factoring : s.strategy.factoring = factoring
  tracked : s.Tracked
  closed : s.Clean → s.IsClosed premises
  saturated : s.status = .saturated →
    s.agenda.waiting = [] ∧ s.droppedBy = none ∧ s.fault = none

/-- A change of the status and of what stands beside the clauses. -/
theorem Complete.congr (h : s.Complete factoring premises) (hs : s'.Sound premises)
    (ha : s'.agenda = s.agenda) (hq : s'.queued = s.queued) (hst : s'.strategy = s.strategy)
    (hc : s'.Clean → s.Clean)
    (hsat : s'.status = .saturated →
      s'.agenda.waiting = [] ∧ s'.droppedBy = none ∧ s'.fault = none) :
    s'.Complete factoring premises :=
  ⟨hs, hst ▸ h.factoring, h.tracked.congr ha hq, fun hcl => (h.closed (hc hcl)).congr ha hst, hsat⟩

theorem Complete.takeGiven {i : Nat} {agenda : Agenda} (h : s.Complete factoring premises)
    (hst : s.status = .searching) (ht : s.agenda.take? i = some (given, agenda)) :
    ((s.takeGiven given agenda).process given).Complete factoring premises := by
  obtain ⟨h₁, hg⟩ := h.sound.takeGiven ht
  obtain ⟨ht₁, hne, hcl⟩ := h.tracked.takeGiven premises ht
  have hadv := h₁.advances_process ht₁ hg hne
  refine ⟨h₁.process hg, hadv.strategy ▸ h.factoring, hadv.tracked, fun hc => ?_, fun hs => ?_⟩
  · have hc₁ := hadv.clean hc
    exact hadv.closed hc (hcl (h.closed ⟨hc₁.fault, hc₁.status, hc₁.dropped⟩))
  · have hst₁ : (s.takeGiven given agenda).status = .searching := hst
    rcases hadv.status with he | he <;> simp [he, hst₁] at hs

theorem Complete.advance (h : s.Complete factoring premises) (hst : s.status = .searching)
    (hf : s.fault = none) : s.advance.Complete factoring premises := by
  have fails : ∀ k, (s.fail k).Complete factoring premises := fun k =>
    h.congr (h.sound.congr rfl) rfl rfl rfl (fun hc => absurd hc.fault (Option.some_ne_none _))
      fun hs => absurd (hst.symm.trans hs) (by decide)
  rw [Search.advance]
  split
  · exact fails _
  · exact h.congr ((h.sound.setStatus .exhausted (by decide)).congr rfl) rfl rfl rfl
      (fun hc => ⟨hc.fault, by simp [hst], hc.dropped⟩) fun hs => by cases hs
  · exact fails _
  · next selector _ _ =>
    let next := some (selector.run s.agenda.waiting).2
    have h₀ : Complete factoring premises { s with selector := next } :=
      h.congr (h.sound.congr rfl) rfl rfl rfl (fun hc => ⟨hc.fault, hc.status, hc.dropped⟩)
        fun hs => absurd (hst.symm.trans hs) (by decide)
    dsimp only
    split
    · next given agenda ht =>
      obtain ⟨i, -, htake⟩ := Option.bind_eq_some_iff.1 ht
      exact h₀.takeGiven hst htake
    · next hnone =>
      split
      · exact h₀.congr ((h₀.sound.setStatus .exhausted (by decide)).congr rfl) rfl rfl rfl
          (fun hc => ⟨hc.fault, by simp [hst], hc.dropped⟩) fun hs => by cases hs
      · next hdropped =>
        refine h₀.congr (h₀.sound.setStatus .saturated (by decide)) rfl rfl rfl
          (fun hc => ⟨hc.fault, by simp [hst], hc.dropped⟩) fun _ => ⟨?_, hdropped, hf⟩
        -- nothing was selected, so nothing waits
        by_contra hwait
        obtain ⟨i, hi, hlt⟩ := selector.exists_selected hwait
        simp [hi, Agenda.take?, List.getElem?_eq_getElem hlt] at hnone

theorem Complete.step (h : s.Complete factoring premises) (hst : s.status = .searching)
    (hf : s.fault = none) : s.step.Complete factoring premises := by
  have hstart : s.start = s := if_neg (by simp [hst])
  rw [Search.step, hstart]
  dsimp only
  rw [if_pos hst]
  exact Complete.advance (h.congr (h.sound.congr rfl) rfl rfl rfl
    (fun hc => ⟨hf, hc.status, hc.dropped⟩) fun hs => absurd (hst.symm.trans hs) (by decide))
    hst rfl

theorem Complete.stepWithin (h : s.Complete factoring premises) (rounds : Nat) :
    (s.stepWithin rounds).Complete factoring premises := by
  induction rounds generalizing s with
  | zero => exact h
  | succ n ih =>
    rw [Search.stepWithin]
    split
    · next hgo =>
      simp only [Bool.and_eq_true, decide_eq_true_eq, Option.isNone_iff_eq_none] at hgo
      exact ih (h.step hgo.1 hgo.2)
    · exact h

/-- A search that begins with its premises is complete to its end. -/
theorem Sound.complete_run {s₀ : Search} (ha : s₀.agenda = {}) (hq : s₀.queued = [])
    (hready : s₀.status = .ready) (hfac : s₀.strategy.factoring = factoring)
    (h : (s₀.seedAll premises).Sound premises) :
    (s₀.seedAll premises).run.Complete factoring premises := by
  have ht₀ : s₀.Tracked := by
    refine ⟨ha ▸ Store.exact_start {}, by simp [hq], ?_⟩
    rintro c ⟨f, hf, -⟩
    simp [ha, Store.clauses] at hf
  obtain ⟨hk, hred⟩ := ht₀.seedAll premises
  have hclosed : (s₀.seedAll premises).status ≠ .refuted →
      (s₀.seedAll premises).IsClosed premises := by
    intro hr
    have hnone : ∀ f, f ∉ (s₀.seedAll premises).agenda.usable.clauses := fun f hf => by
      simpa [ha, Store.clauses] using (hk.usable f).1 hf
    exact ⟨hred hr, fun _ f hf => absurd hf (hnone f), fun f g hf => absurd hf (hnone f)⟩
  refine Complete.stepWithin ?_ _
  have hsound := h.start
  rcases hk.status with hs | hs
  · rw [Search.start, if_pos (hs.trans hready)] at hsound ⊢
    exact ⟨hsound, hk.strategy ▸ hfac, hk.tracked.congr rfl rfl,
      fun _ => (hclosed (by simp [hs, hready])).congr rfl rfl, fun hsat => by cases hsat⟩
  · rw [Search.start, if_neg (by simp [hs])] at hsound ⊢
    exact ⟨hsound, hk.strategy ▸ hfac, hk.tracked.congr rfl rfl, fun hc => absurd hs hc.status,
      fun hsat => absurd (hs.symm.trans hsat) (by decide)⟩

/-- When a search is saturated only usable clauses are left, and they are closed. -/
theorem Complete.closed_of_saturated (h : s.Complete factoring premises)
    (hs : s.status = .saturated) (hf : s.fault = none) :
    (∀ d ∈ premises, Redundant s.Usable d.clause) ∧
      (∀ c d, s.Usable c → s.Usable d → ResolvesIn s.Usable c d) ∧
      (factoring = true → ∀ c, s.Usable c → FactorsIn s.Usable c) := by
  obtain ⟨hwait, hdropped, -⟩ := h.saturated hs
  have hcl := h.closed ⟨hf, by simp [hs], hdropped⟩
  rw [IsClosed, h.factoring] at hcl
  have hlive : ∀ c, s.Live c → Redundant s.Usable c := by
    rintro c ⟨g, hg | hg, rfl⟩
    · exact redundant_of_mem ⟨g, hg, rfl⟩
    · simp [hwait] at hg
  refine ⟨fun d hd => (hcl.premises d hd).mono hlive, ?_, ?_⟩
  · rintro c d ⟨f, hf, rfl⟩ ⟨g, hg, rfl⟩
    exact (hcl.resolvents f g hf hg).mono hlive
  · rintro hfac c ⟨f, hf, rfl⟩
    exact (hcl.factors hfac f hf).mono hlive

/-- A search that ends saturated leaves a structure for its premises, in which literals are false
that the usable clauses do not rule out. -/
theorem Complete.exists_structure_of_not_blocked (h : s.Complete true premises)
    (hs : s.status = .saturated) (hf : s.fault = none) {S : Set Literal}
    (hS : ¬ Blocked s.Usable S) :
    ∃ M : Structure Term, M.fn = Term.app ∧ (∀ d ∈ premises, M.Satisfies d.clause) ∧
      ∀ l ∈ S, ¬ l.Holds M .var := by
  obtain ⟨hpremises, hresolvents, hfactors⟩ := h.closed_of_saturated hs hf
  obtain ⟨M, hfn, hM, hfalse⟩ := Clause.exists_structure hS (hfactors rfl) hresolvents
  refine ⟨M, hfn, fun d hd => ?_, hfalse⟩
  rcases hpremises d hd with ht | ⟨c, hc, hcov⟩
  · exact satisfies_of_isTautology ht M
  · exact (hM c hc).of_covers hcov

theorem Complete.isRefutation_of_usable (h : s.Complete factoring premises) {c : Clause}
    (hc : s.Usable c) : isRefutation c = false := by
  obtain ⟨f, hf, rfl⟩ := hc
  exact h.tracked.unrefuted _ ⟨f, Or.inl hf, rfl⟩

theorem Complete.exists_structure (h : s.Complete true premises) (hs : s.status = .saturated)
    (hf : s.fault = none) : ∃ M : Structure Term, ∀ d ∈ premises, M.Satisfies d.clause := by
  have hne : ∀ c, s.Usable c → c.literals ≠ [] := by
    intro c hc hempty
    have hno := h.isRefutation_of_usable hc
    exact Bool.eq_false_iff.1 hno (isRefutation_iff.2 (Or.inl hempty))
  obtain ⟨M, -, hM, -⟩ := h.exists_structure_of_not_blocked hs hf (not_blocked_empty hne)
  exact ⟨M, hM⟩

end Search

end Elenchus

import Elenchus.Proofs.Bounds
import Elenchus.Proofs.Lineage
import Elenchus.Proofs.SearchPhases

/-! Searches whose bounds and depths are numbers do not fail in the middle of a round. -/

namespace Elenchus

open Inference

/-- Each bound is a number or not set. -/
structure Limits.IsProper (l : Limits) : Prop where
  maxGiven : l.maxGiven.IsBound
  maxClauses : l.maxClauses.IsBound
  maxSeconds : l.maxSeconds.IsBound
  maxDepth : l.maxDepth.IsBound
  maxClauseSize : l.maxClauseSize.IsBound
  maxWeight : l.maxWeight.IsBound

namespace Search

variable {strategy : Strategy} {seeds ds : List Derived} {s s' : Search} {d : Derived}
  {given : Filed}

theorem exists_limitReached (h : s.limits.IsProper) : ∃ k, s.limitReached = .ok k := by
  apply Limits.exists_firstHolding_eq_ok
  simp only [List.forall_mem_cons]
  exact ⟨Limits.exists_compared _ h.maxGiven ⟨_, rfl⟩,
    Limits.exists_compared _ h.maxClauses ⟨_, rfl⟩,
    Limits.exists_compared _ h.maxSeconds ⟨_, Item.number?_ofNumber _⟩, by simp⟩

theorem exists_limitExceeded {l : Limits} (h : l.IsProper) (hd : d.HasLevel) :
    ∃ k, limitExceeded l d = .ok k := by
  apply Limits.exists_firstHolding_eq_ok
  simp only [List.forall_mem_cons]
  exact ⟨Limits.exists_compared _ h.maxDepth hd, Limits.exists_compared _ h.maxClauseSize ⟨_, rfl⟩,
    Limits.exists_compared _ h.maxWeight ⟨_, rfl⟩, by simp⟩

/-! ### What a round leaves alone -/

/-- The bounds, the selector and the number of given clauses. -/
def frame (s : Search) : Limits × Option Selector × Nat :=
  (s.limits, s.selector, s.statistics.given)

theorem shorten_frame (s : Search) (d : Derived) : (s.shorten d).2.frame = s.frame := by
  rw [shorten]
  split
  · rcases simplify_cases s.agenda.usable d s.renamer with heq | ⟨-, heq⟩ <;> rw [heq]
    · rfl
    · dsimp only
      split <;> rfl
  · rfl

theorem keepShortened_frame (s : Search) (d : Derived) : (s.keepShortened d).frame = s.frame := by
  rw [keepShortened]
  split
  · rfl
  · split
    · rfl
    · split
      · rfl
      · rfl
      · split <;> rfl

theorem keep_frame (s : Search) (d : Derived) : (s.keep d).frame = s.frame := by
  have hshorten := shorten_frame s.generate d
  have hkeep : s.keep d = if (s.generate.shorten d).2.fault.isSome then (s.generate.shorten d).2
      else (s.generate.shorten d).2.keepShortened (s.generate.shorten d).1 := rfl
  rw [hkeep]
  split
  · exact hshorten
  · exact (keepShortened_frame _ _).trans hshorten

theorem keepAll_frame (s : Search) (ds : List Derived) : (s.keepAll ds).frame = s.frame := by
  induction ds generalizing s with
  | nil => rfl
  | cons d ds ih =>
    rw [keepAll]
    split
    · exact keep_frame s d
    · exact (ih _).trans (keep_frame s d)

theorem failToInfer_frame (s : Search) (given : Filed) :
    (s.failToInfer given).frame = s.frame := by
  rw [failToInfer]
  dsimp only
  split
  · rfl
  · split <;> rfl

theorem process_frame (s : Search) (given : Filed) : (s.process given).frame = s.frame := by
  by_cases ht : given.clause.isTautology = true
  · rw [process, if_pos ht]
    rfl
  · by_cases hs : s.agenda.usable.isSubsumed given.clause = true
    · rw [process, if_neg ht, if_pos hs]
      rfl
    · have huse : (s.makeUsable given).frame = s.frame := by
        rw [makeUsable_eq_replaced]
        rfl
      rw [process_eq s given ht hs]
      split
      · exact (keepAll_frame _ _).trans huse
      · exact (failToInfer_frame _ _).trans huse

/-! ### Rounds without faults -/

section
variable (h : s.Descends seeds) (hseeds : ∀ d ∈ seeds, d.HasLevel)
include h hseeds

theorem Descends.shorten_fault (hd : Made s.Files s.renamer d) :
    (s.shorten d).2.fault = s.fault := by
  rw [Search.shorten]
  split
  · obtain ⟨-, hx, -⟩ := deletions_deletes s.agenda.usable d.clause s.renamer
      fun id f hf => ((Arena.files_of_filed? hf).1.add d : (s.file d).2.Files f)
    rcases simplify_cases s.agenda.usable d s.renamer with heq | ⟨-, heq⟩ <;> rw [heq]
    have hshort : Made (s.file d).2.Files s.renamer
        (unitDeleted ⟨s.agenda.usable.arena.size, d⟩
          (deletions s.agenda.usable d.clause s.renamer).1) :=
      unitDeleted_made (Arena.files_add_self _ d) fun x hm => (hx x hm).known
    have hlevel := hshort.level fun p hp => (h.file (Or.inr hd)).hasLevel hseeds hp
    dsimp only
    rw [if_pos hlevel.hasDepth]
  · rfl

theorem Descends.keep_fault (hl : s.limits.IsProper) (hd : Made s.Files s.renamer d)
    (hf : s.fault = none) : (s.keep d).fault = none := by
  have hrests : s.Rests s.generate := .of_core rfl
  have h₁ := h.rests hrests
  have hmade : Made s.generate.Files s.generate.renamer d := hrests.evolves.made hd
  obtain ⟨h₂, -, hshort⟩ := h₁.shorten hmade
  have hfault : (s.generate.shorten d).2.fault = none :=
    (h₁.shorten_fault hseeds hmade).trans hf
  have hlimits : (s.generate.shorten d).2.limits.IsProper := by
    have hframe : (s.generate.shorten d).2.limits = s.limits :=
      congrArg Prod.fst (shorten_frame s.generate d)
    exact hframe ▸ hl
  have hlevel := hshort.level fun p hp => h₂.hasLevel hseeds hp
  obtain ⟨k, hk⟩ := exists_limitExceeded hlimits hlevel
  have hkeep : s.keep d = if (s.generate.shorten d).2.fault.isSome then (s.generate.shorten d).2
      else (s.generate.shorten d).2.keepShortened (s.generate.shorten d).1 := rfl
  rw [hkeep, hfault, if_neg (by simp), Search.keepShortened, hk]
  split
  · exact hfault
  · split
    · exact hfault
    · cases k with
      | none =>
        dsimp only
        split <;> exact hfault
      | some k => exact hfault

theorem Descends.keepAll_fault (hl : s.limits.IsProper)
    (hds : ∀ d ∈ ds, Made s.Files s.renamer d) (hf : s.fault = none) :
    (s.keepAll ds).fault = none := by
  induction ds generalizing s with
  | nil => exact hf
  | cons d ds ih =>
    obtain ⟨hd, hrest⟩ := List.forall_mem_cons.1 hds
    have hfault := h.keep_fault hseeds hl hd hf
    have hlimits : (s.keep d).limits = s.limits := congrArg Prod.fst (keep_frame s d)
    obtain ⟨h₁, e₁⟩ := h.keep hd
    rw [Search.keepAll]
    split
    · exact hfault
    · exact ih h₁ (hlimits ▸ hl) (fun e he => e₁.made (hrest e he)) hfault

theorem Descends.process_fault (hl : s.limits.IsProper) (hg : s.Files given)
    (hf : s.fault = none) : (s.process given).fault = none := by
  by_cases ht : given.clause.isTautology = true
  · rw [Search.process, if_pos ht]
    exact hf
  · by_cases hs : s.agenda.usable.isSubsumed given.clause = true
    · rw [Search.process, if_neg ht, if_pos hs]
      exact hf
    · have hrests := rests_makeUsable s given
      have huse := h.rests hrests
      obtain ⟨hinfer, hmade⟩ := huse.infer (hrests.files.2 hg)
      have hall : ((s.makeUsable given).infer given).1.all Derived.hasDepth = true := by
        refine List.all_eq_true.2 fun d hd => Derived.HasLevel.hasDepth ?_
        exact (hmade d hd).level fun p hp => hinfer.hasLevel hseeds hp
      rw [process_eq s given ht hs, if_pos hall]
      refine hinfer.keepAll_fault hseeds ?_ hmade ?_ <;> rw [makeUsable_eq_replaced]
      · exact hl
      · exact hf

/-- A round comes to its end, or the search has no selector and nothing happens. -/
theorem Descends.step_fault (hl : s.limits.IsProper) :
    s.step.fault = none ∨ s.selector = none ∧ ∃ fault, s.step = s.begun.fail fault := by
  have hbegun : s.begun.Descends seeds := h.rests (rests_start s)
  rw [step_eq]
  split
  · have hround := advance_round s.begun
    generalize hadvance : s.begun.advance = s' at hround
    cases hround with
    | fail fault hfault =>
      rcases hfault with hselector | ⟨k, hk⟩
      · rw [begun_eq] at hselector
        exact Or.inr ⟨hselector, fault, rfl⟩
      · obtain ⟨k', hk'⟩ := exists_limitReached (s := s.begun) (begun_limits s ▸ hl)
        rw [hk] at hk'
        cases hk'
    | exhaust selector hk => exact Or.inl rfl
    | saturate selector hw hd => exact Or.inl rfl
    | @process selector i given hlimit hw =>
      left
      have hrests : s.begun.Rests (taken { s.begun with selector := some selector } i given) :=
        ⟨rfl, rfl, fun f hf => List.mem_of_mem_eraseIdx hf, id, rfl⟩
      refine (hbegun.rests hrests).process_fault hseeds (begun_limits s ▸ hl)
        (hrests.files.2 (hbegun.waiting given (List.mem_of_getElem? hw))) rfl
  · exact Or.inl rfl

end

end Search

end Elenchus

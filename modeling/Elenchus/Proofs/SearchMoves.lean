import Elenchus.Proofs.Consequences
import Elenchus.Proofs.SearchCoverage
import Mathlib.Logic.Relation

/-! What can happen to a search, move by move, and what holds in every state that it comes to. -/

namespace Elenchus

open Inference Relation

namespace Search

variable {strategy : Strategy} {seeds ds : List Derived} {s s' : Search} {d : Derived}
  {given : Filed}

/-- A search up to its selector, its supply of names, its last fault and the counts that only tell
which rules were used. -/
def view (s : Search) : Search :=
  { s with
    selector := none
    renamer := {}
    statistics := { s.statistics with factors := 0, hyperresolvents := 0, unitDeletions := 0 }
    fault := none }

/-- Counts a clause that was inferred. -/
def generate (s : Search) : Search :=
  { s with statistics := { s.statistics with generated := s.statistics.generated + 1 } }

/-- The search goes on, and the given clause is the one that waits at a position. -/
structure Selects (s : Search) (i : Nat) (given : Filed) : Prop where
  searching : s.status = .searching
  unbounded : s.limitReached = .ok none
  waits : s.agenda.waiting[i]? = some given

/-- The clause at a position is taken out of the queue. -/
def taken (s : Search) (i : Nat) (given : Filed) : Search :=
  s.takeGiven given { s.agenda with waiting := s.agenda.waiting.eraseIdx i }

/-- The search as its next round finds it. -/
def begun (s : Search) : Search := { s.start with fault := none }

/-- One thing that happens to a search. A fault is not forgotten before the round is over. The last
six are about a clause that has been inferred. -/
inductive Move : Search → Search → Prop
  | aside {s s' : Search} (h : s'.view = s.view)
      (hf : s.fault.isSome = true → s'.fault.isSome = true) : Move s s'
  | file (s : Search) (d : Derived) : Move s (s.file d).2
  | seed {s : Search} {d : Derived} (hs : s.status = .ready)
      (hr : ¬ isRefutation d.clause = true) (hq : ¬ s.isQueued d.clause = true) :
      Move s (s.enqueue d)
  | refuteInput {s : Search} {d : Derived} (hs : s.status = .ready)
      (hr : isRefutation d.clause = true) : Move s (s.refute d)
  | exhaust {s : Search} {k : LimitKind} (hs : s.status = .searching)
      (hk : s.limitReached = .ok (some k) ∨ s.agenda.waiting = [] ∧ s.droppedBy = some k) :
      Move s (s.exhaust k)
  | saturate {s : Search} (hs : s.status = .searching) (hw : s.agenda.waiting = [])
      (hd : s.droppedBy = none) : Move s { s with status := .saturated }
  | giveUpTautology {s : Search} {i : Nat} {given : Filed} (h : s.Selects i given)
      (ht : given.clause.isTautology = true) :
      Move s { s.taken i given with
        statistics := { (s.taken i given).statistics with
          tautologies := s.statistics.tautologies + 1 } }
  | giveUpSubsumed {s : Search} {i : Nat} {given : Filed} (h : s.Selects i given)
      (hs : s.agenda.usable.isSubsumed given.clause = true) :
      Move s { s.taken i given with
        statistics := { (s.taken i given).statistics with
          forwardSubsumed := s.statistics.forwardSubsumed + 1 } }
  | use {s : Search} {i : Nat} {given : Filed} (h : s.Selects i given)
      (ht : ¬ given.clause.isTautology = true)
      (hs : ¬ s.agenda.usable.isSubsumed given.clause = true) :
      Move s ((s.taken i given).makeUsable given)
  | refute {s : Search} {d : Derived} (hs : s.status = .searching)
      (hr : isRefutation d.clause = true) : Move s (s.generate.refute d)
  | leaveTautology {s : Search} {d : Derived} (hs : s.status = .searching)
      (ht : d.clause.isTautology = true) :
      Move s { s.generate with
        statistics := { s.generate.statistics with tautologies := s.statistics.tautologies + 1 } }
  | drop {s : Search} {d : Derived} {k : LimitKind} (hs : s.status = .searching)
      (hl : limitExceeded s.limits d = .ok (some k)) : Move s (s.generate.drop k)
  | leaveSubsumed {s : Search} {d : Derived} (hs : s.status = .searching)
      (hq : s.isQueued d.clause = true ∨ s.agenda.usable.isSubsumed d.clause = true) :
      Move s { s.generate with
        statistics := { s.generate.statistics with
          forwardSubsumed := s.statistics.forwardSubsumed + 1 } }
  | keep {s : Search} {d : Derived} (hs : s.status = .searching)
      (hr : ¬ isRefutation d.clause = true) (ht : ¬ d.clause.isTautology = true)
      (hl : limitExceeded s.limits d = .ok none) (hq : ¬ s.isQueued d.clause = true)
      (hu : ¬ s.agenda.usable.isSubsumed d.clause = true) :
      Move s { s.generate.enqueue d with
        statistics := { s.generate.statistics with kept := s.statistics.kept + 1 } }
  | abort {s : Search} (hs : s.status = .searching) (fault : SearchFault) :
      Move s (s.generate.fail fault)

/-- What is done in several moves. -/
abbrev Moves : Search → Search → Prop := ReflTransGen Move

theorem Moves.aside {s₁ : Search} (h : Moves s s₁) (hv : s'.view = s₁.view)
    (hf : s₁.fault.isSome = true → s'.fault.isSome = true) : Moves s s' :=
  h.tail (.aside hv hf)

/-! ### New clauses -/

/-- Shortening may file the clause; it is a fault if the depth of the shorter one cannot be told. -/
theorem shorten_moves (s : Search) (d : Derived) :
    ∃ s₁, Moves s s₁ ∧ s₁.status = s.status ∧ ((s.generate.shorten d).2 = s₁.generate ∨
      (s.generate.shorten d).2 = s₁.generate.fail .noDepth) := by
  let xs := deletions s.agenda.usable d.clause s.renamer
  have hfile : Moves s (s.file d).2 := .single (.file s d)
  rw [shorten]
  split
  · rcases simplify_cases s.generate.agenda.usable d s.generate.renamer with heq | ⟨-, heq⟩ <;>
      rw [heq]
    · exact ⟨{ s with renamer := xs.2 }, .single (.aside rfl id), rfl, Or.inl rfl⟩
    · dsimp only
      split
      · exact ⟨{ (s.file d).2 with
            renamer := xs.2
            statistics := { s.statistics with
              unitDeletions := s.statistics.unitDeletions + xs.1.length } },
          hfile.aside rfl id, rfl, Or.inl rfl⟩
      · exact ⟨{ (s.file d).2 with renamer := xs.2 }, hfile.aside rfl id, rfl, Or.inr rfl⟩
  · exact ⟨s, .refl, rfl, Or.inl rfl⟩

theorem keepShortened_move (hs : s.status = .searching) (d : Derived) :
    Move s (s.generate.keepShortened d) := by
  rw [keepShortened]
  split
  · next hr => exact .refute hs hr
  · next hr =>
    split
    · next ht => exact .leaveTautology hs ht
    · next ht =>
      split
      · exact .abort hs _
      · next hl => exact .drop hs hl
      · next hl =>
        split
        · next hq => exact .leaveSubsumed hs (Bool.or_eq_true_iff.1 hq)
        · next hq =>
          rw [Bool.or_eq_true, not_or] at hq
          exact .keep hs hr ht hl hq.1 hq.2

theorem keepShortened_status (s : Search) (d : Derived) :
    (s.keepShortened d).status = s.status ∨ (s.keepShortened d).status = .refuted := by
  rw [keepShortened]
  split
  · exact Or.inr rfl
  · left
    split
    · rfl
    · split <;> try rfl
      split <;> rfl

/-- A clause that is kept or left out does not end the search unless it refutes the input. -/
theorem keep_moves (hs : s.status = .searching) (d : Derived) :
    Moves s (s.keep d) ∧ ((s.keep d).status = .searching ∨ (s.keep d).status = .refuted) := by
  obtain ⟨s₁, hm, hstatus, hs₁⟩ := shorten_moves s d
  rw [hs] at hstatus
  have hkeep : s.keep d = if (s.generate.shorten d).2.fault.isSome then (s.generate.shorten d).2
      else (s.generate.shorten d).2.keepShortened (s.generate.shorten d).1 := rfl
  rw [hkeep]
  rcases hs₁ with heq | heq <;> rw [heq]
  · split
    · next hf =>
      obtain ⟨fault, hfault⟩ := Option.isSome_iff_exists.1 hf
      have hsame : s₁.generate = s₁.generate.fail fault := by rw [fail, ← hfault]
      rw [hsame]
      exact ⟨hm.tail (.abort hstatus fault), Or.inl hstatus⟩
    · refine ⟨hm.tail (keepShortened_move hstatus _), ?_⟩
      rw [← hstatus]
      exact keepShortened_status s₁.generate _
  · exact ⟨hm.tail (.abort hstatus .noDepth), Or.inl hstatus⟩

theorem keepAll_moves (hs : s.status = .searching) (ds : List Derived) :
    Moves s (s.keepAll ds) := by
  induction ds generalizing s with
  | nil => exact .refl
  | cons d ds ih =>
    obtain ⟨hm, hstatus⟩ := keep_moves hs d
    rw [keepAll]
    split
    · exact hm
    · next hgo =>
      refine hm.trans (ih (hstatus.resolve_right fun hr => hgo ?_))
      rw [hr]
      rfl

/-! ### Rounds -/

theorem failToInfer_view (s : Search) (given : Filed) : (s.failToInfer given).view = s.view := by
  rw [failToInfer]
  dsimp only
  split
  · rfl
  · split <;> rfl

theorem failToInfer_fault (s : Search) (given : Filed) :
    (s.failToInfer given).fault.isSome = true := by
  rw [failToInfer]
  dsimp only
  split
  · rfl
  · split <;> rfl

theorem process_moves {i : Nat} (h : s.Selects i given) :
    Moves s ((s.taken i given).process given) := by
  by_cases ht : given.clause.isTautology = true
  · rw [process, if_pos ht]
    exact .single (.giveUpTautology h ht)
  · by_cases hs : s.agenda.usable.isSubsumed given.clause = true
    · have hs' : (s.taken i given).agenda.usable.isSubsumed given.clause = true := hs
      rw [process, if_neg ht, if_pos hs']
      exact .single (.giveUpSubsumed h hs)
    · have huse : Moves s ((s.taken i given).makeUsable given) := .single (.use h ht hs)
      have hsearching : ((s.taken i given).makeUsable given).status = .searching := by
        obtain ⟨ids, statistics, -, heq⟩ := makeUsable_eq (s.taken i given) given
        rw [heq]
        exact h.searching
      rw [process_eq (s.taken i given) given ht hs]
      split
      · have hinfer : Moves s (((s.taken i given).makeUsable given).infer given).2 :=
          huse.aside rfl id
        refine hinfer.trans (keepAll_moves ?_ _)
        exact hsearching
      · exact huse.aside (failToInfer_view _ given) fun _ => failToInfer_fault _ given

/-- What a round of a search that goes on comes to. -/
inductive Round (s : Search) : Search → Prop
  | fail (fault : SearchFault) (h : s.selector = none ∨ ∃ k, s.limitReached = .error k) :
      Round s (s.fail fault)
  | exhaust (selector : Option Selector) {k : LimitKind}
      (hk : s.limitReached = .ok (some k) ∨ s.agenda.waiting = [] ∧ s.droppedBy = some k) :
      Round s (Search.exhaust { s with selector } k)
  | saturate (selector : Option Selector) (hw : s.agenda.waiting = [])
      (hd : s.droppedBy = none) : Round s { s with selector, status := .saturated }
  | process (selector : Selector) {i : Nat} {given : Filed} (hl : s.limitReached = .ok none)
      (hw : s.agenda.waiting[i]? = some given) :
      Round s ((taken { s with selector := some selector } i given).process given)

theorem advance_round (s : Search) : s.Round s.advance := by
  rw [advance]
  split
  · next hk => exact .fail _ (Or.inr ⟨_, hk⟩)
  · next hk => exact .exhaust s.selector (Or.inl hk)
  · next hselector => exact .fail _ (Or.inl hselector)
  · next selector hl _ =>
    dsimp only
    split
    · next given agenda ht =>
      obtain ⟨i, -, ht⟩ := Option.bind_eq_some_iff.1 ht
      obtain ⟨f, hf, he⟩ := Option.map_eq_some_iff.1 ht
      obtain ⟨rfl, rfl⟩ := Prod.mk.inj he
      exact .process _ hl hf
    · next hnone =>
      -- nothing was selected, so nothing waits
      have hwait : s.agenda.waiting = [] := by
        by_contra hwait
        obtain ⟨i, hi, hlt⟩ := selector.exists_selected hwait
        simp [hi, Agenda.take?, List.getElem?_eq_getElem hlt] at hnone
      split
      · next hk => exact .exhaust _ (Or.inr ⟨hwait, hk⟩)
      · next hk => exact .saturate _ hwait hk

theorem Round.moves (h : s.Round s') (hs : s.status = .searching) : Moves s s' := by
  have hselector : ∀ selector, Moves s { s with selector } :=
    fun selector => .single (.aside rfl id)
  cases h with
  | fail fault _ => exact .single (.aside rfl fun _ => rfl)
  | exhaust selector hk => exact (hselector selector).tail (.exhaust hs hk)
  | saturate selector hw hd => exact (hselector selector).tail (.saturate hs hw hd)
  | process selector hl hw => exact (hselector selector).trans (process_moves ⟨hs, hl, hw⟩)

theorem begun_eq (s : Search) : s.begun =
    { s with status := if s.status = .ready then .searching else s.status, fault := none } := by
  rw [begun, start]
  split <;> rfl

theorem step_eq (s : Search) :
    s.step = if s.begun.status = .searching then s.begun.advance else s.begun := rfl

theorem step_moves (s : Search) : Moves s.begun s.step := by
  rw [step_eq]
  split
  · next hs => exact (advance_round _).moves hs
  · exact .refl

/-! ### Input -/

theorem seedAll_moves (hs : s.status = .ready) (ds : List Derived) : Moves s (s.seedAll ds) := by
  induction ds generalizing s with
  | nil => exact .refl
  | cons d ds ih =>
    rw [seedAll]
    split
    · next hr => exact .single (.refuteInput hs hr)
    · next hr =>
      split
      · exact .head (.file s d) (ih (s := (s.file d).2) hs)
      · next hq => exact .head (.seed hs hr hq) (ih (s := s.enqueue d) hs)

theorem Moves.invariant {P : Search → Prop} (hP : ∀ s s', Move s s' → P s → P s')
    (h : Moves s s') (hs : P s) : P s' := by
  induction h with
  | refl => exact hs
  | tail _ hm ih => exact hP _ _ hm ih

section
variable {P : Search → Prop} (hbegun : ∀ s, P s → P s.begun) (hP : ∀ s s', Move s s' → P s → P s')
include hbegun hP

theorem iterate_step_invariant (hs : P s) (n : Nat) : P (step^[n] s) := by
  induction n with
  | zero => exact hs
  | succ n ih =>
    rw [Function.iterate_succ_apply']
    exact (step_moves _).invariant hP (hbegun _ ih)

/-- What holds before any input and is preserved by every move and the beginning of a round holds in
every state that a search comes to. -/
theorem Reached.invariant
    (hcreate : ∀ limits selector around, P { limits, selector, around, strategy })
    (h : Reached strategy seeds s) : P s := by
  induction h with
  | create limits selector around => exact hcreate limits selector around
  | seed _ hs ih =>
    obtain ⟨hready, rfl⟩ := seed_eq_ok hs
    exact (seedAll_moves hready _).invariant hP ih
  | step _ ih => exact (step_moves _).invariant hP (hbegun _ ih)

end

end Search

end Elenchus

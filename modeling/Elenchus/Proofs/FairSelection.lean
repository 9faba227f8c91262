import Elenchus.Proofs.SearchCoverage

/-! Selection by ratio passes over a clause a bounded number of times, and then takes it. -/

namespace Elenchus

/-! ### Selectors -/

namespace Selector

variable {ratio : Item} {s s' : Selector} {waiting : List Filed} {r i : Nat}

/-- What comes of a selector with a ratio when clauses are selected from any queues, empty ones too,
and the selections are counted or not. -/
inductive Reached (ratio : Item) : Selector → Prop
  | create {s : Selector} (h : ofRatio ratio = .ok s) : Reached ratio s
  | select {s : Selector} (h : Reached ratio s) (waiting : List Filed) :
    Reached ratio (s.select waiting).2
  | run {s : Selector} (h : Reached ratio s) (waiting : List Filed) :
    Reached ratio (s.run waiting).2

/-- The oldest clause is due after `r` others, and `s.turn` of these have been taken. -/
structure Keeps (r : Nat) (s : Selector) : Prop where
  preference : s.preference = .ratio (some r)
  turn_le : s.turn ≤ r

/-- A selection from a queue that is not empty. -/
theorem Keeps.select_cases (h : s.Keeps r) (hw : waiting ≠ []) :
    s.turn = r ∧ s.select waiting = (some 0, { s with turn := 0 }) ∨
      s.turn < r ∧ ∃ i < waiting.length,
        s.select waiting = (some i, { s with turn := s.turn + 1 }) := by
  obtain ⟨f, fs, rfl⟩ := List.exists_cons_of_ne_nil hw
  rw [Selector.select, h.preference]
  simp only [List.isEmpty_cons, Bool.false_eq_true, if_false, Option.any_some, decide_eq_true_eq]
  rcases Nat.lt_or_ge s.turn r with hlt | hge
  · obtain ⟨i, hi, hlength⟩ := exists_smallest f fs
    rw [if_neg (by omega), hi]
    exact Or.inr ⟨hlt, i, hlength, rfl⟩
  · have hturn := h.turn_le
    rw [if_pos (by omega)]
    exact Or.inl ⟨by omega, rfl⟩

theorem select_nil (h : s.Keeps r) : s.select [] = (none, s) := by
  rw [Selector.select, h.preference]
  rfl

theorem Keeps.select (h : s.Keeps r) (waiting : List Filed) : (s.select waiting).2.Keeps r := by
  by_cases hw : waiting = []
  · rw [hw, select_nil h]
    exact h
  · rcases h.select_cases hw with ⟨_, hselect⟩ | ⟨hlt, i, _, hselect⟩ <;> rw [hselect]
    · exact ⟨h.preference, Nat.zero_le r⟩
    · exact ⟨h.preference, hlt⟩

/-- Counting a selection changes nothing else. -/
theorem run_snd (s : Selector) (waiting : List Filed) :
    ∃ m, (s.run waiting).2 = { (s.select waiting).2 with selections := m } := by
  rw [Selector.run]
  split
  · next i t h => exact ⟨_, by rw [h]⟩
  · next t h => exact ⟨t.selections, by rw [h]⟩

theorem Keeps.run (h : s.Keeps r) (waiting : List Filed) : (s.run waiting).2.Keeps r := by
  obtain ⟨m, hm⟩ := run_snd s waiting
  rw [hm]
  exact ⟨(h.select waiting).preference, (h.select waiting).turn_le⟩

theorem Reached.keeps (h : Reached ratio s)
    (hr : ratio.number?.bind Number.floor? = some (r : Int)) : s.Keeps r := by
  induction h with
  | create h =>
    obtain ⟨n, hn, hfloor⟩ := Option.bind_eq_some_iff.1 hr
    rw [ofRatio, hn] at h
    dsimp only at h
    split at h
    · cases h
    · cases h
      rw [hfloor]
      exact ⟨rfl, Nat.zero_le r⟩
  | select _ waiting ih => exact ih.select waiting
  | run _ waiting ih => exact ih.run waiting

end Selector

/-! ### Clauses that wait -/

/-- A clause that waits: the selector at work, the queue, and the place of the clause in it. -/
structure Watch where
  selector : Selector
  waiting : List Filed
  place : Nat

namespace Watch

variable {ratio : Item} {r k : Nat} {w w' : Watch}

/-- A selection that passes over the clause. The one that is selected is taken out of the queue, and
new clauses come in at the end. -/
inductive Passes (w : Watch) : Watch → Prop
  | intro {i : Nat} {s : Selector} (new : List Filed)
      (hi : (w.selector.select w.waiting).1 = some i) (hne : i ≠ w.place)
      (hs : s = (w.selector.select w.waiting).2 ∨ s = (w.selector.run w.waiting).2) :
    Passes w ⟨s, w.waiting.eraseIdx i ++ new, if i < w.place then w.place - 1 else w.place⟩

/-- The clause is there, and so is the ratio. -/
structure IsFair (r : Nat) (w : Watch) : Prop where
  keeps : w.selector.Keeps r
  place_lt : w.place < w.waiting.length

theorem IsFair.nonempty (h : w.IsFair r) : w.waiting ≠ [] :=
  List.ne_nil_of_length_pos (Nat.zero_lt_of_lt h.place_lt)

theorem IsFair.exists_select (h : w.IsFair r) :
    ∃ i < w.waiting.length, (w.selector.select w.waiting).1 = some i := by
  rcases h.keeps.select_cases h.nonempty with ⟨_, hselect⟩ | ⟨_, i, hi, hselect⟩
  · exact ⟨0, Nat.zero_lt_of_lt h.place_lt, by rw [hselect]⟩
  · exact ⟨i, hi, by rw [hselect]⟩

/-- The selections that can still pass over the clause: those up to the next one by age, and from
then on one round for each clause before it. -/
def passesLeft (r : Nat) (w : Watch) : Nat := w.place * (r + 1) + (r - w.selector.turn)

/-- The clause stays in the queue. -/
theorem Passes.getElem?_place (hw : w.Passes w') (hp : w.place < w.waiting.length) :
    w'.waiting[w'.place]? = w.waiting[w.place]? := by
  cases hw with
  | @intro i s new hi hne hs =>
    have hlength : (w.waiting.eraseIdx i).length =
        if i < w.waiting.length then w.waiting.length - 1 else w.waiting.length :=
      List.length_eraseIdx
    dsimp only
    split
    · rw [if_pos (by omega)] at hlength
      rw [List.getElem?_append_left (by omega), List.getElem?_eraseIdx, if_neg (by omega),
        Nat.sub_add_cancel (by omega)]
    · split at hlength <;>
        rw [List.getElem?_append_left (by omega), List.getElem?_eraseIdx, if_pos (by omega)]

theorem Passes.place_lt (hw : w.Passes w') (hp : w.place < w.waiting.length) :
    w'.place < w'.waiting.length := by
  have hsome : w'.waiting[w'.place]?.isSome = true := by
    rw [hw.getElem?_place hp, List.getElem?_eq_getElem hp]
    rfl
  simpa using hsome

theorem Passes.keeps (hw : w.Passes w') (h : w.selector.Keeps r) : w'.selector.Keeps r := by
  cases hw with
  | intro new hi hne hs =>
    rcases hs with rfl | rfl
    · exact h.select w.waiting
    · exact h.run w.waiting

theorem Passes.turn_eq (hw : w.Passes w') :
    w'.selector.turn = (w.selector.select w.waiting).2.turn := by
  cases hw with
  | intro new hi hne hs =>
    rcases hs with rfl | rfl
    · rfl
    · obtain ⟨m, hm⟩ := Selector.run_snd w.selector w.waiting
      dsimp only
      rw [hm]

/-- Every selection that passes over the clause is one less to come: one by age brings the clause a
place nearer to the front, and any other one brings the next one by age nearer. -/
theorem IsFair.passesLeft_lt (h : w.IsFair r) (hw : w.Passes w') :
    w'.passesLeft r < w.passesLeft r := by
  have hturn := hw.turn_eq
  rw [passesLeft, passesLeft, hturn]
  cases hw with
  | @intro i s new hi hne hs =>
    dsimp only
    rcases h.keeps.select_cases h.nonempty with ⟨hdue, hselect⟩ | ⟨hlt, j, _, hselect⟩
    · rw [hselect] at hi ⊢
      obtain rfl : 0 = i := Option.some.inj hi
      obtain ⟨p, hp⟩ := Nat.exists_eq_succ_of_ne_zero (Ne.symm hne)
      have hround : (p + 1) * (r + 1) = p * (r + 1) + (r + 1) := Nat.succ_mul p (r + 1)
      rw [if_pos (by omega), hp, Nat.succ_sub_one, Nat.succ_eq_add_one, hround]
      dsimp only
      omega
    · rw [hselect]
      have hplace : (if i < w.place then w.place - 1 else w.place) ≤ w.place := by split <;> omega
      have hrounds := Nat.mul_le_mul_right (r + 1) hplace
      dsimp only
      omega

/-- When no more selections can pass over the clause, it is the next one. -/
theorem IsFair.select_eq_place (h : w.IsFair r) (hleft : w.passesLeft r = 0) :
    (w.selector.select w.waiting).1 = some w.place := by
  obtain ⟨hplace, hturn⟩ := Nat.add_eq_zero_iff.1 hleft
  have hzero : w.place = 0 := (Nat.mul_eq_zero.1 hplace).resolve_right (Nat.succ_ne_zero r)
  rcases h.keeps.select_cases h.nonempty with ⟨_, hselect⟩ | ⟨hlt, _⟩
  · rw [hselect, hzero]
  · omega

theorem IsFair.passes (h : w.IsFair r) (hw : w.Passes w') : w'.IsFair r :=
  ⟨hw.keeps h.keeps, hw.place_lt h.place_lt⟩

/-- What a run of selections that pass over a clause comes to. -/
theorem IsFair.run {w : Nat → Watch} (h : (w 0).IsFair r)
    (hrun : ∀ n < k, (w n).Passes (w (n + 1))) :
    (w k).IsFair r ∧ (w k).passesLeft r + k ≤ (w 0).passesLeft r ∧
      (w k).waiting[(w k).place]? = (w 0).waiting[(w 0).place]? := by
  induction k with
  | zero => exact ⟨h, Nat.le_refl _, rfl⟩
  | succ k ih =>
    obtain ⟨hfair, hleft, hclause⟩ := ih fun n hn => hrun n (Nat.lt_succ_of_lt hn)
    have hpasses := hrun k (Nat.lt_succ_self k)
    have hlt := hfair.passesLeft_lt hpasses
    exact ⟨hfair.passes hpasses, by omega, (hpasses.getElem?_place hfair.place_lt).trans hclause⟩

/-- No clause waits for ever. However often a selector with a ratio has been at work before, and
whatever comes in behind the clause, a limited number of selections can pass over it; there is
always a next one, and after as many as that it is the clause. Of a ratio that is no whole number
the part before the point counts. -/
theorem passed_over_at_most {w : Nat → Watch}
    (hr : ratio.number?.bind Number.floor? = some (r : Int))
    (hs : Selector.Reached ratio (w 0).selector) (hp : (w 0).place < (w 0).waiting.length)
    (hrun : ∀ n < k, (w n).Passes (w (n + 1))) :
    k ≤ ((w 0).place + 1) * (r + 1) - 1 ∧
      (w k).waiting[(w k).place]? = (w 0).waiting[(w 0).place]? ∧
      ∃ i < (w k).waiting.length, ((w k).selector.select (w k).waiting).1 = some i ∧
        (k = ((w 0).place + 1) * (r + 1) - 1 → i = (w k).place) := by
  have hround : ((w 0).place + 1) * (r + 1) = (w 0).place * (r + 1) + (r + 1) := Nat.succ_mul _ _
  have hstart : (w 0).passesLeft r ≤ ((w 0).place + 1) * (r + 1) - 1 := by
    rw [passesLeft]
    omega
  obtain ⟨hfair, hleft, hclause⟩ := IsFair.run ⟨hs.keeps hr, hp⟩ hrun
  obtain ⟨i, hi, hselect⟩ := hfair.exists_select
  refine ⟨by omega, hclause, i, hi, hselect, fun hk => ?_⟩
  have hlast := hfair.select_eq_place (by omega)
  rw [hselect] at hlast
  exact Option.some.inj hlast

/-- A clause with one literal, which has a number of symbols besides its predicate. -/
def sized (id : Nat) (args : List Term) : Filed := ⟨id, { clause := .ofList [⟨⟨"p", args⟩, true⟩] }⟩

/-- The second of three clauses, which is larger than the others and than the one that comes in. -/
def crowded : Nat → Watch
  | 0 =>
    ⟨⟨.ratio (some 1), 0, 0⟩, [sized 0 [.var "x"], sized 1 [.var "x", .var "y"], sized 2 []], 1⟩
  | 1 =>
    ⟨⟨.ratio (some 1), 1, 1⟩, [sized 0 [.var "x"], sized 1 [.var "x", .var "y"], sized 3 []], 1⟩
  | 2 => ⟨⟨.ratio (some 1), 0, 2⟩, [sized 1 [.var "x", .var "y"], sized 3 []], 0⟩
  | _ => ⟨⟨.ratio (some 1), 1, 3⟩, [sized 1 [.var "x", .var "y"]], 0⟩

theorem passed_over_at_most_crowded :
    Selector.Reached (.int 1) (crowded 0).selector ∧
      (crowded 0).place < (crowded 0).waiting.length ∧
      (∀ n < 3, (crowded n).Passes (crowded (n + 1))) ∧
      3 ≤ ((crowded 0).place + 1) * (1 + 1) - 1 ∧
      (crowded 3).waiting[(crowded 3).place]? = (crowded 0).waiting[(crowded 0).place]? ∧
      ∃ i < (crowded 3).waiting.length,
        ((crowded 3).selector.select (crowded 3).waiting).1 = some i ∧
          (3 = ((crowded 0).place + 1) * (1 + 1) - 1 → i = (crowded 3).place) := by
  have hs : Selector.Reached (.int 1) (crowded 0).selector := .create rfl
  have hp : (crowded 0).place < (crowded 0).waiting.length := by decide
  have hrun : ∀ n < 3, (crowded n).Passes (crowded (n + 1)) := by
    intro n hn
    rcases (by omega : n = 0 ∨ n = 1 ∨ n = 2) with rfl | rfl | rfl
    · exact .intro (i := 2) [sized 3 []] rfl (by decide) (Or.inr rfl)
    · exact .intro (i := 0) [] rfl (by decide) (Or.inr rfl)
    · exact .intro (i := 1) [] rfl (by decide) (Or.inr rfl)
  exact ⟨hs, hp, hrun, passed_over_at_most (r := 1) rfl hs hp hrun⟩

end Watch

end Elenchus

import Elenchus.Search.Basic
import Mathlib.Data.Int.Init
import Mathlib.Data.Int.Order.Basic
import Mathlib.Order.Compare

/-! Bounds as numbers, whole or not, and how far a count may go below them. -/

namespace Elenchus

namespace Number

variable {a b : Number} {n : Int}

theorem compare?_of_scaled {m n e f : Int} (ha : a.scaled? = some (m, e))
    (hb : b.scaled? = some (n, f)) :
    a.compare? b = some (compare (m * Int.pow 2 (e - min e f).toNat)
      (n * Int.pow 2 (f - min e f).toNat)) := by
  simp [compare?, ha, hb]

/-- A whole number is at a bound or beyond if it is not below the bound rounded up. -/
theorem le_int_iff (hb : b.ceil? = some n) (m : Int) : b.le (.int m) = true ↔ n ≤ m := by
  obtain ⟨⟨x, e⟩, hx, hn⟩ := Option.map_eq_some_iff.1 hb
  dsimp only at hn
  have hone : Int.pow 2 0 = 1 := rfl
  have hle : b.le (.int m) = true ↔
      x * Int.pow 2 (e - min e 0).toNat ≤ m * Int.pow 2 (0 - min e 0).toNat := by
    rw [le, lt, eq, compare?_of_scaled hx rfl]
    simp only [Bool.or_eq_true, beq_iff_eq, Option.some.injEq, compare_lt_iff_lt,
      compare_eq_iff_eq]
    exact le_iff_lt_or_eq.symm
  rw [hle, ← hn]
  by_cases he : 0 ≤ e
  · rw [if_pos he, min_eq_right he, Int.sub_zero, Int.sub_zero, Int.toNat_zero, hone, Int.mul_one]
  · have hpos : 0 < Int.pow 2 (-e).toNat := Int.pow_pos (by decide)
    have hdiv : -m ≤ -x / Int.pow 2 (-e).toNat ↔ -(m * Int.pow 2 (-e).toNat) ≤ -x := by
      rw [Int.le_ediv_iff_mul_le hpos, Int.neg_mul]
    rw [if_neg he, min_eq_left (by omega), Int.sub_self, Int.zero_sub, Int.toNat_zero, hone,
      Int.mul_one]
    omega

theorem lt_int_int (m n : Int) : Number.lt (.int m) (.int n) = decide (m < n) := by
  rw [lt, compare?_of_scaled rfl rfl, Bool.eq_iff_iff]
  simp [compare_lt_iff_lt]

end Number

/-- A value that can be a bound: nothing, or a number. -/
def Item.IsBound (i : Item) : Prop := i = .null ∨ ∃ n, i.number? = some n

theorem Search.wholeBound?_int (n : Int) : wholeBound? (.int n) = some n := by
  simp [wholeBound?, Item.number?, Number.ceil?, Number.scaled?]

namespace Limits

variable {bound value : Item} {ps : List (LimitKind × Option Bool)}

/-- The value is not beyond the bound, if there is one: both are numbers, and the bound is not the
lesser of them. -/
def Admits (bound value : Item) : Prop :=
  bound = .null ∨ ∃ b m, bound.number? = some b ∧ value.number? = some m ∧ b.lt m = false

theorem admits_int {m n : Int} : Admits (.int n) (.int m) ↔ m ≤ n := by
  simp [Admits, Item.number?, Number.lt_int_int]

theorem admits_of_exceeded (h : exceeded bound value = some false) : Admits bound value := by
  rw [exceeded, compared.eq_def] at h
  split at h
  · exact Or.inl rfl
  · next b m _ hm hb => exact Or.inr ⟨b, m, hb, hm, Option.some.inj h⟩
  · cases h

theorem reached_of_wholeBound? {n : Int} (h : Search.wholeBound? bound = some n) (m : Int) :
    reached bound (.int m) = some (decide (n ≤ m)) := by
  obtain ⟨b, hb, hn⟩ := Option.bind_eq_some_iff.1 h
  have hle : b.le (.int m) = decide (n ≤ m) := by
    rw [Bool.eq_iff_iff, Number.le_int_iff hn, decide_eq_true_iff]
  rw [reached, compared.eq_def]
  split
  · cases hb
  · next b' m' _ hm' hb' =>
    obtain rfl := Option.some.inj (hb'.symm.trans hb)
    obtain rfl := Option.some.inj hm'
    rw [hle]
  · next hno => exact absurd rfl (hno b (.int m) hb)

theorem exists_compared (related : Number → Number → Bool) (h : bound.IsBound)
    (hv : ∃ m, value.number? = some m) : ∃ b, compared related bound value = some b := by
  obtain ⟨m, hm⟩ := hv
  rcases h with rfl | ⟨n, hn⟩
  · exact ⟨false, rfl⟩
  · rw [compared.eq_def]
    split
    · exact ⟨_, rfl⟩
    · exact ⟨_, rfl⟩
    · next hno => exact absurd hm (hno n m hn)

theorem firstHolding_eq_ok_none (h : firstHolding ps = .ok none) : ∀ p ∈ ps, p.2 = some false := by
  induction ps with
  | nil => simp
  | cons p ps ih =>
    obtain ⟨k, _ | _ | _⟩ := p
    · simp [firstHolding] at h
    · exact List.forall_mem_cons.2 ⟨rfl, ih h⟩
    · simp [firstHolding] at h

theorem exists_firstHolding_eq_ok (h : ∀ p ∈ ps, ∃ b, p.2 = some b) :
    ∃ k, firstHolding ps = .ok k := by
  induction ps with
  | nil => exact ⟨none, rfl⟩
  | cons p ps ih =>
    obtain ⟨hp, hps⟩ := List.forall_mem_cons.1 h
    obtain ⟨k, o⟩ := p
    obtain ⟨b, rfl⟩ := hp
    cases b with
    | false => exact ih hps
    | true => exact ⟨some k, rfl⟩

end Limits

end Elenchus

import Mathlib.Tactic.Common

/-! General facts: computations that may fail, and lists. -/

namespace Elenchus

universe u v

/-! ### Results and errors -/

section Except

variable {ε : Type u} {α β : Type v} {x : Except ε α} {a : α} {b : β}

theorem eq_ok_of_toOption (h : x.toOption = some a) : x = .ok a := by
  cases x <;> simp_all [Except.toOption]

theorem ok_bind (a : α) (f : α → Except ε β) : (Except.ok a >>= f) = f a := rfl

theorem bind_eq_ok {f : α → Except ε β} (h : (x >>= f) = .ok b) :
    ∃ a, x = .ok a ∧ f a = .ok b := by
  cases x with
  | error e => cases h
  | ok a => exact ⟨a, rfl, h⟩

theorem map_eq_ok {f : α → β} (h : x.map f = .ok b) : ∃ a, x = .ok a ∧ f a = b := by
  cases x with
  | error e => cases h
  | ok a => exact ⟨a, rfl, Except.ok.inj h⟩

/-- A computation that goes on past a check has passed it. -/
theorem check_eq_ok {p : Prop} [Decidable p] {e : ε} {k : PUnit → Except ε α}
    (h : (if p then Except.error e >>= k else k ⟨⟩) = .ok a) : ¬ p ∧ k ⟨⟩ = .ok a := by
  split at h
  · cases h
  · next hp => exact ⟨hp, h⟩

end Except

/-! ### Lists -/

section List

variable {α : Type u} {β : Type v} {g : α → Option β} {l : List α} {l' : List β}

theorem mapM_eq_some_filterMap (h : ∀ x ∈ l, (g x).isSome) : l.mapM g = some (l.filterMap g) := by
  induction l with
  | nil => rfl
  | cons x l ih =>
    obtain ⟨y, hy⟩ := Option.isSome_iff_exists.1 (h x (List.mem_cons_self ..))
    rw [List.mapM_cons, hy, ih fun z hz => h z (List.mem_cons_of_mem _ hz),
      List.filterMap_cons_some hy]
    rfl

theorem exists_of_mem_mapM {y : β} (h : l.mapM g = some l') (hy : y ∈ l') :
    ∃ x ∈ l, g x = some y := by
  induction l generalizing l' with
  | nil =>
    cases h
    cases hy
  | cons x l ih =>
    rw [List.mapM_cons] at h
    obtain ⟨z, hz, h⟩ := Option.bind_eq_some_iff.1 h
    obtain ⟨zs, hzs, h⟩ := Option.bind_eq_some_iff.1 h
    obtain rfl : z :: zs = l' := Option.some.inj h
    rcases List.mem_cons.1 hy with rfl | hy
    · exact ⟨x, List.mem_cons_self .., hz⟩
    · obtain ⟨w, hw, hwy⟩ := ih hzs hy
      exact ⟨w, List.mem_cons_of_mem _ hw, hwy⟩

theorem eq_nil_iff_of_mapM (h : l.mapM g = some l') : l = [] ↔ l' = [] := by
  cases l with
  | nil => simp_all
  | cons x l =>
    rw [List.mapM_cons] at h
    obtain ⟨y, -, h⟩ := Option.bind_eq_some_iff.1 h
    obtain ⟨ys, -, h⟩ := Option.bind_eq_some_iff.1 h
    obtain rfl : y :: ys = l' := Option.some.inj h
    simp

theorem getElem?_filterMap_of_isSome (h : ∀ x ∈ l, (g x).isSome) (k : Nat) :
    (l.filterMap g)[k]? = l[k]?.bind g := by
  induction l generalizing k with
  | nil => rfl
  | cons x l ih =>
    obtain ⟨y, hy⟩ := Option.isSome_iff_exists.1 (h x (List.mem_cons_self ..))
    rw [List.filterMap_cons_some hy]
    cases k with
    | zero => exact hy.symm
    | succ k => exact ih (fun z hz => h z (List.mem_cons_of_mem _ hz)) k

theorem exists_eraseIdx_eq {i : Nat} {x : α} (h : l[i]? = some x) :
    ∃ u v, l = u ++ x :: v ∧ l.eraseIdx i = u ++ v := by
  obtain ⟨hlt, rfl⟩ := List.getElem?_eq_some_iff.1 h
  refine ⟨l.take i, l.drop (i + 1), ?_, List.eraseIdx_eq_take_drop_succ l i⟩
  rw [← List.drop_eq_getElem_cons hlt, List.take_append_drop]

theorem eraseDups_of_nodup [DecidableEq α] (h : l.Nodup) : l.eraseDups = l := by
  induction l with
  | nil => rfl
  | cons a l ih =>
    obtain ⟨ha, hl⟩ := List.nodup_cons.1 h
    have hfilter : (l.filter fun b => !b == a) = l := by
      refine List.filter_eq_self.2 fun b hb => ?_
      simpa using ne_of_mem_of_not_mem hb ha
    rw [List.eraseDups_cons, hfilter, ih hl]

end List

end Elenchus

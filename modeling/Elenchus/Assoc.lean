/-! Association lists: values under keys, in the order in which the keys first came. -/

namespace Elenchus

universe u v

variable {κ : Type u} {α : Type v}

/-- Sets the value under a key: in its place if there is a key like it, else at the end. -/
def putBy (alike : κ → κ → Bool) (key : κ) (value : α) : List (κ × α) → List (κ × α)
  | [] => [(key, value)]
  | (k, v) :: ms => if alike k key then (k, value) :: ms else (k, v) :: putBy alike key value ms

theorem putBy_of_new {alike : κ → κ → Bool} {key : κ} {ms : List (κ × α)}
    (h : ∀ m ∈ ms, alike m.1 key = false) (value : α) :
    putBy alike key value ms = ms ++ [(key, value)] := by
  induction ms with
  | nil => rfl
  | cons m ms ih =>
    obtain ⟨k, v⟩ := m
    have hk : alike k key = false := h _ (List.mem_cons_self ..)
    rw [putBy, hk, ih fun m hm => h m (List.mem_cons_of_mem _ hm)]
    rfl

section DecidableEq

variable [DecidableEq κ] {key k : κ} {value a : α} {ms : List (κ × α)}

/-- The same for keys that are alike if they are equal. -/
def put (key : κ) (value : α) (ms : List (κ × α)) : List (κ × α) :=
  putBy (fun k l => decide (k = l)) key value ms

@[simp] theorem put_nil (key : κ) (value : α) : put key value [] = [(key, value)] := rfl

@[simp] theorem put_cons (key : κ) (value : α) (m : κ × α) (ms : List (κ × α)) :
    put key value (m :: ms) = if m.1 = key then (key, value) :: ms else m :: put key value ms := by
  rw [put, putBy]
  by_cases h : m.1 = key
  · simp [h]
  · simp [h, put]

theorem put_of_new (h : key ∉ ms.map Prod.fst) (value : α) :
    put key value ms = ms ++ [(key, value)] := by
  refine putBy_of_new (fun m hm => ?_) value
  rw [decide_eq_false_iff_not]
  rintro rfl
  exact h (List.mem_map_of_mem hm)

theorem mem_keys_put : k ∈ (put key value ms).map Prod.fst ↔ k = key ∨ k ∈ ms.map Prod.fst := by
  induction ms with
  | nil => simp
  | cons m ms ih =>
    rw [put_cons]
    split
    · next h => simp [h]
    · rw [List.map_cons, List.mem_cons, ih, List.map_cons, List.mem_cons]
      exact or_left_comm

theorem nodup_put (h : (ms.map Prod.fst).Nodup) : ((put key value ms).map Prod.fst).Nodup := by
  induction ms with
  | nil => simp
  | cons m ms ih =>
    rw [List.map_cons, List.nodup_cons] at h
    rw [put_cons]
    split
    · next hk => simpa [← hk] using h
    · next hk =>
      rw [List.map_cons, List.nodup_cons, mem_keys_put, not_or]
      exact ⟨⟨hk, h.1⟩, ih h.2⟩

theorem mem_of_mem_put {m : κ × α} (h : m ∈ put key value ms) : m = (key, value) ∨ m ∈ ms := by
  induction ms with
  | nil => exact Or.inl (List.mem_singleton.1 h)
  | cons n ms ih =>
    rw [put_cons] at h
    split at h
    · exact (List.mem_cons.1 h).imp_right (List.mem_cons_of_mem _)
    · rcases List.mem_cons.1 h with rfl | h
      · exact Or.inr (List.mem_cons_self ..)
      · exact (ih h).imp_right (List.mem_cons_of_mem _)

/-! ### Looking up -/

theorem lookup_cons_ite (k l : κ) (a : α) (ms : List (κ × α)) :
    List.lookup k ((l, a) :: ms) = if k = l then some a else ms.lookup k := by
  by_cases h : k = l
  · simp [h]
  · rw [List.lookup_cons, beq_eq_false_iff_ne.2 h, if_neg h]

theorem mem_of_lookup_eq_some (h : ms.lookup k = some a) : (k, a) ∈ ms := by
  induction ms with
  | nil => simp at h
  | cons m ms ih =>
    obtain ⟨l, b⟩ := m
    rw [lookup_cons_ite] at h
    split at h
    · next hk => simp_all
    · exact List.mem_cons_of_mem _ (ih h)

/-- Where no key stands twice, every value is found by its key. -/
theorem lookup_eq_some_of_mem (hn : (ms.map Prod.fst).Nodup) (h : (k, a) ∈ ms) :
    ms.lookup k = some a := by
  induction ms with
  | nil => simp at h
  | cons m ms ih =>
    obtain ⟨l, b⟩ := m
    rw [List.map_cons, List.nodup_cons] at hn
    rcases List.mem_cons.1 h with he | hm
    · obtain ⟨rfl, rfl⟩ := Prod.mk.inj he
      simp
    · have hk : k ≠ l := by
        rintro rfl
        exact hn.1 (List.mem_map.2 ⟨_, hm, rfl⟩)
      rw [lookup_cons_ite, if_neg hk]
      exact ih hn.2 hm

theorem lookup_put (key : κ) (value : α) (ms : List (κ × α)) (k : κ) :
    (put key value ms).lookup k = if k = key then some value else ms.lookup k := by
  induction ms with
  | nil => simp [lookup_cons_ite]
  | cons m ms ih =>
    rw [put_cons, lookup_cons_ite]
    split
    · next hm =>
      rw [lookup_cons_ite, hm]
      split <;> rfl
    · next hm =>
      rw [lookup_cons_ite, ih]
      by_cases hk : k = m.1
      · simp [hk, hm]
      · simp [hk]

end DecidableEq

end Elenchus

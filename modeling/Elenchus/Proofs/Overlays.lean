import Elenchus.Proofs.SymbolTables
import Elenchus.Settings.Basic

/-! Named values that are set on top of others, seen from the paths through them. -/

namespace Elenchus

/-! ### Keys -/

namespace Item

variable {k l : Item} {s : String}

theorem alike_str_iff {i : Item} : i.alike (.str s) = true ↔ i = .str s := by
  simp [alike, same_str_iff, isUndefined]

theorem str_alike_iff {i : Item} : (Item.str s).alike i = true ↔ i = .str s := by
  cases i <;> simp [alike, same, number?, isUndefined]
  exact eq_comm

/-- Keys that are not the same, and that nothing is the same as both of. -/
def Apart (k l : Item) : Prop := ∀ i : Item, i = k ∨ i.alike k = true → i.alike l = false

theorem apart_str (h : k ≠ .str s) : k.Apart (.str s) := by
  rintro i (rfl | hi)
  · simpa using mt alike_str_iff.1 h
  · by_contra hs
    rw [Bool.not_eq_false, alike_str_iff] at hs
    exact h (str_alike_iff.1 (hs ▸ hi))

theorem find?_put_of_apart (h : k.Apart l) (v : Item) (ms : Members) :
    find? l (put k v ms) = find? l ms := by
  induction ms with
  | nil => simp [find?, h k (Or.inl rfl)]
  | cons m ms ih =>
    by_cases hm : m.1.alike k = true
    · simp [find?, hm, h m.1 (Or.inr hm)]
    · simp [find?, hm, ih]

theorem find?_put_self (s : String) (v : Item) (ms : Members) :
    find? (.str s) (put (.str s) v ms) = some v := by
  induction ms with
  | nil => simp [find?, alike_str_iff]
  | cons m ms ih =>
    by_cases hm : m.1.alike (.str s) = true
    · simp [find?, hm]
    · simp [find?, hm, ih]

theorem find?_cons_self (s : String) (v : Item) (ms : Members) :
    find? (.str s) ((.str s, v) :: ms) = some v := by
  simp [find?, alike_str_iff]

theorem find?_cons_of_ne (h : k ≠ .str s) (v : Item) (ms : Members) :
    find? (.str s) ((k, v) :: ms) = find? (.str s) ms := by
  simp [find?, alike_str_iff, h]

theorem find?_eq_none_of_apart {ms : Members} (h : ∀ m ∈ ms, (Item.str s).Apart m.1) :
    find? (.str s) ms = none := by
  induction ms with
  | nil => rfl
  | cons m ms ih =>
    have hm : m.1 ≠ .str s := by
      intro he
      have := h m List.mem_cons_self _ (Or.inl rfl)
      rw [he, alike_str_iff.2 rfl] at this
      cases this
    exact (find?_cons_of_ne hm m.2 ms).trans (ih fun l hl => h l (List.mem_cons_of_mem _ hl))

end Item

/-! ### Paths -/

namespace Item

/-- The named values that an item is, if it is. -/
def members? (i : Item) : Option Members :=
  match i.untied with
  | .map ms => some ms
  | _ => none

@[simp] theorem members?_map (ms : Members) : (Item.map ms).members? = some ms := rfl

end Item

namespace Settings

theorem follow_cons (i : Item) (k : String) (ks : List String) :
    follow i (k :: ks) = (i.members?.bind (Members.get? · k)).bind (follow · ks) := by
  rw [follow, Item.members?]
  cases i.untied <;> try rfl
  next ms => cases h : Members.get? ms k <;> simp [h]

theorem follow_map_cons (ms : Members) (k : String) (ks : List String) :
    follow (.map ms) (k :: ks) = (Members.get? ms k).bind (follow · ks) := by
  rw [follow_cons, Item.members?_map, Option.bind_some]

theorem follow_append (i : Item) (ks ls : List String) :
    follow i (ks ++ ls) = (follow i ks).bind (follow · ls) := by
  induction ks generalizing i with
  | nil => rfl
  | cons k ks ih => simp only [List.cons_append, follow_cons, ih, Option.bind_assoc]

theorem follow_of_members?_eq_none {i : Item} {path : List String} (hi : i.members? = none)
    (hpath : path ≠ []) : follow i path = none := by
  obtain ⟨k, ks, rfl⟩ := List.exists_cons_of_ne_nil hpath
  rw [follow_cons, hi]
  rfl

/-- On the way to a path, something stands that is no named values. -/
def Bars (i : Item) (path : List String) : Prop :=
  ∃ way v, way <+: path ∧ way ≠ path ∧ follow i way = some v ∧ v.members? = none

theorem not_bars_nil (i : Item) : ¬ Bars i [] := by
  rintro ⟨way, v, hway, hne, -⟩
  exact hne (List.prefix_nil.1 hway)

theorem bars_of_members?_eq_none {i : Item} {path : List String} (hi : i.members? = none)
    (hpath : path ≠ []) : Bars i path :=
  ⟨[], i, List.nil_prefix, Ne.symm hpath, rfl, hi⟩

theorem bars_map_cons {ms : Members} {k : String} {ks : List String} :
    Bars (.map ms) (k :: ks) ↔ ∃ v, Members.get? ms k = some v ∧ Bars v ks := by
  constructor
  · rintro ⟨way, v, hway, hne, hv, hnone⟩
    cases way with
    | nil =>
      cases hv
      cases hnone
    | cons l way =>
      obtain ⟨rfl, hrest⟩ := List.cons_prefix_cons.1 hway
      obtain ⟨u, hu, hv⟩ := Option.bind_eq_some_iff.1 (follow_map_cons ms l way ▸ hv)
      exact ⟨u, hu, way, v, hrest, fun h => hne (h ▸ rfl), hv, hnone⟩
  · rintro ⟨u, hu, way, v, hway, hne, hv, hnone⟩
    refine ⟨k :: way, v, List.cons_prefix_cons.2 ⟨rfl, hway⟩, by simpa using hne, ?_, hnone⟩
    rw [follow_map_cons, hu]
    exact hv

theorem follow_of_bars {i : Item} {path : List String} (h : Bars i path) :
    follow i path = none := by
  obtain ⟨way, v, ⟨rest, rfl⟩, hne, hv, hnone⟩ := h
  rw [follow_append, hv]
  exact follow_of_members?_eq_none hnone (by simpa using hne)

/-- What becomes of the value at a place when another one is set there: at all paths from there on
the new value counts where it has a word to say, and else the old one. -/
structure Overlays (old : Option Item) (new result : Item) : Prop where
  value : ∀ {path v}, follow new path = some v → v.members? = none → follow result path = some v
  barred : ∀ {path}, Bars new path → follow result path = none
  silent : ∀ {path}, path ≠ [] → follow new path = none → ¬ Bars new path →
    follow result path = old.bind (follow · path)

theorem overlays_leaf (old : Option Item) {v : Item} (hv : v.members? = none) :
    Overlays old v v where
  value h _ := h
  barred h := follow_of_bars h
  silent hpath _ hbars := absurd (bars_of_members?_eq_none hv hpath) hbars

/-- Named values go into the named values that are there, or into none. -/
theorem Overlays.of_base {old : Option Item} {base : Members} {new result : Item}
    (h : Overlays (some (.map base)) new result)
    (hold : (old = none ∨ old = some .null) ∧ base = [] ∨ old = some (.map base)) :
    Overlays old new result where
  value := h.value
  barred := h.barred
  silent {path} hpath hnone hbars := by
    rw [h.silent hpath hnone hbars]
    obtain ⟨k, ks, rfl⟩ := List.exists_cons_of_ne_nil hpath
    rcases hold with ⟨rfl | rfl, rfl⟩ | rfl <;> rfl

/-- The outcome of setting `new` on top of `old`, name by name. -/
def Sets (old new merged : Members) : Prop :=
  ∀ s, Members.get? new s = none ∧ Members.get? merged s = Members.get? old s ∨
    ∃ v result, Members.get? new s = some v ∧ Members.get? merged s = some result ∧
      Overlays (Members.get? old s) v result

theorem Sets.overlays {old new merged : Members} (h : Sets old new merged) :
    Overlays (some (.map old)) (.map new) (.map merged) where
  value {path v} hv hnone := by
    cases path with
    | nil =>
      cases hv
      cases hnone
    | cons s ks =>
      rw [follow_map_cons] at hv ⊢
      rcases h s with ⟨hnew, -⟩ | ⟨u, result, hnew, hmerged, hover⟩
      · rw [hnew] at hv
        cases hv
      · rw [hnew] at hv
        rw [hmerged]
        exact hover.value hv hnone
  barred {path} hbars := by
    cases path with
    | nil => exact absurd hbars (not_bars_nil _)
    | cons s ks =>
      obtain ⟨v, hv, hbars⟩ := bars_map_cons.1 hbars
      rcases h s with ⟨hnew, -⟩ | ⟨u, result, hnew, hmerged, hover⟩
      · rw [hnew] at hv
        cases hv
      · obtain rfl := Option.some.inj (hnew.symm.trans hv)
        rw [follow_map_cons, hmerged]
        exact hover.barred hbars
  silent {path} hpath hnone hbars := by
    obtain ⟨s, ks, rfl⟩ := List.exists_cons_of_ne_nil hpath
    rw [follow_map_cons] at hnone ⊢
    rw [Option.bind_some, follow_map_cons]
    rcases h s with ⟨-, hmerged⟩ | ⟨v, result, hnew, hmerged, hover⟩
    · rw [hmerged]
    · rw [hnew, Option.bind_some] at hnone
      rw [hmerged, Option.bind_some]
      refine hover.silent ?_ hnone fun hv => hbars (bars_map_cons.2 ⟨v, hnew, hv⟩)
      rintro rfl
      cases hnone

theorem sets_nil (old : Members) : Sets old [] old := fun _ => Or.inl ⟨rfl, rfl⟩

theorem Sets.cons {old rest merged : Members} {k v result : Item}
    (hk : ∀ m ∈ rest, k.Apart m.1) (hover : Overlays (Item.find? k old) v result)
    (hrest : Sets (Item.put k result old) rest merged) : Sets old ((k, v) :: rest) merged := by
  intro s
  by_cases hs : k = .str s
  · subst hs
    have hnone : Members.get? rest s = none := Item.find?_eq_none_of_apart hk
    refine Or.inr ⟨v, result, Item.find?_cons_self s v rest, ?_, hover⟩
    rcases hrest s with ⟨-, hmerged⟩ | ⟨u, _, hu, -⟩
    · exact hmerged.trans (Item.find?_put_self s result old)
    · rw [hnone] at hu
      cases hu
  · have hnew : Members.get? ((k, v) :: rest) s = Members.get? rest s :=
      Item.find?_cons_of_ne hs v rest
    have hold : Members.get? (Item.put k result old) s = Members.get? old s :=
      Item.find?_put_of_apart (Item.apart_str hs) result old
    rw [hnew, ← hold]
    exact hrest s

end Settings

end Elenchus

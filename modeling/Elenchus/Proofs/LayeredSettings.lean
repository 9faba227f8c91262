import Elenchus.Proofs.Overlays

/-! Settings in layers: the last layer that has anything to say about a path has its value. -/

namespace Elenchus

/-! ### Placeholders -/

namespace Item

mutual
/-- Whether a placeholder stands somewhere in a value. -/
def hasPlaceholder : Item → Bool
  | .str s => (placeholder? s).isSome
  | .list is => hasPlaceholderItems is
  | .map ms => hasPlaceholderMembers ms
  | _ => false

def hasPlaceholderItems : List Item → Bool
  | [] => false
  | i :: is => i.hasPlaceholder || hasPlaceholderItems is

def hasPlaceholderMembers : Members → Bool
  | [] => false
  | (_, v) :: ms => v.hasPlaceholder || hasPlaceholderMembers ms
end

mutual
theorem resolve_eq_ok (read : Reader) (env : Environment) : (i : Item) →
    i.hasPlaceholder = false → i.resolve read env = .ok i
  | .str s, h => by
    have hnone : placeholder? s = none := by simpa [hasPlaceholder] using h
    simp [resolve, hnone]
  | .list is, h => by
    simp [resolve, resolveItems_eq_ok read env is h, bind, Except.bind, pure, Except.pure]
  | .map ms, h => by
    simp [resolve, resolveMembers_eq_ok read env ms h, bind, Except.bind, pure, Except.pure]
  | .null, _ | .bool _, _ | .int _, _ | .float _, _ | .term _, _ | .literal _, _ | .clause _, _
  | .subst _, _ | .moment _, _ | .bytes _, _ | .set _, _ | .knot _ _, _ | .back _, _ => by
    simp [resolve]

theorem resolveItems_eq_ok (read : Reader) (env : Environment) : (is : List Item) →
    hasPlaceholderItems is = false → resolveItems read env is = .ok is
  | [], _ => by simp [resolveItems]
  | i :: is, h => by
    obtain ⟨hi, his⟩ := Bool.or_eq_false_iff.1 h
    simp [resolveItems, resolve_eq_ok read env i hi, resolveItems_eq_ok read env is his, bind,
      Except.bind, pure, Except.pure]

theorem resolveMembers_eq_ok (read : Reader) (env : Environment) : (ms : Members) →
    hasPlaceholderMembers ms = false → resolveMembers read env ms = .ok ms
  | [], _ => by simp [resolveMembers]
  | (k, v) :: ms, h => by
    obtain ⟨hv, hms⟩ := Bool.or_eq_false_iff.1 h
    simp [resolveMembers, resolve_eq_ok read env v hv, resolveMembers_eq_ok read env ms hms, bind,
      Except.bind, pure, Except.pure]
end

theorem hasPlaceholderMembers_put {k v : Item} {ms : Members} (hv : v.hasPlaceholder = false)
    (hms : hasPlaceholderMembers ms = false) : hasPlaceholderMembers (put k v ms) = false := by
  induction ms with
  | nil => simp [hasPlaceholderMembers, hv]
  | cons m ms ih =>
    obtain ⟨hm, hms⟩ := Bool.or_eq_false_iff.1 hms
    rw [put_cons]
    split
    · exact Bool.or_eq_false_iff.2 ⟨hv, hms⟩
    · exact Bool.or_eq_false_iff.2 ⟨hm, ih hms⟩

theorem hasPlaceholder_of_find? {k v : Item} {ms : Members}
    (hms : hasPlaceholderMembers ms = false) (h : find? k ms = some v) :
    v.hasPlaceholder = false := by
  induction ms with
  | nil => cases h
  | cons m ms ih =>
    obtain ⟨hm, hms⟩ := Bool.or_eq_false_iff.1 hms
    rw [find?] at h
    split at h
    · cases h
      exact hm
    · exact ih hms h

end Item

/-! ### Layers -/

namespace Item

/-- The value under some keys. -/
def at? : Item → (keys : List Item) → Option Item
  | i, [] => some i
  | .map ms, k :: ks => (find? k ms).bind fun v => v.at? ks
  | _, _ :: _ => none

/-- A value stands under some keys in another one. -/
inductive Holds : Item → (keys : List Item) → Item → Prop
  | self (i : Item) : Holds i [] i
  | member {ms : Members} {k v i : Item} {ks : List Item} (hm : (k, v) ∈ ms) (hv : Holds v ks i) :
    Holds (.map ms) (k :: ks) i

end Item

namespace Members

open Settings

variable {old new base inner merged rest : Members} {k v : Item}

/-- Named values that are nested to some depth: no two keys are the same, and no named values hold
themselves. -/
inductive IsNested : Members → Prop
  | nil : IsNested []
  | leaf {k v : Item} {rest : Members} (hv : v.members? = none) (hk : ∀ m ∈ rest, k.Apart m.1)
      (hrest : IsNested rest) : IsNested ((k, v) :: rest)
  | inner {k : Item} {inner rest : Members} (hinner : IsNested inner)
      (hk : ∀ m ∈ rest, k.Apart m.1) (hrest : IsNested rest) : IsNested ((k, .map inner) :: rest)

/-- Wherever the new values are named values themselves, the old ones are such or null, or there are
none. -/
def Fits (old new : Members) : Prop :=
  ∀ keys inner, (Item.map new).Holds keys (.map inner) →
    (Item.map old).at? keys = none ∨ (Item.map old).at? keys = some .null ∨
      ∃ ms, (Item.map old).at? keys = some (.map ms)

theorem fits_nil (new : Members) : Fits [] new := by
  intro keys inner _
  cases keys with
  | nil => exact Or.inr (Or.inr ⟨[], rfl⟩)
  | cons k ks => exact Or.inl rfl

/-- What named values go into. -/
theorem Fits.exists_base (h : old.Fits new) (hm : (k, .map inner) ∈ new) :
    ∃ base, ofValue (Item.find? k old) = .ok base ∧ base.Fits inner ∧
      ((Item.find? k old = none ∨ Item.find? k old = some .null) ∧ base = [] ∨
        Item.find? k old = some (.map base)) := by
  have hk := h [k] inner (.member hm (.self _))
  have hat : (Item.map old).at? [k] = Item.find? k old := by simp [Item.at?]
  rw [hat] at hk
  rcases hk with hk | hk | ⟨ms, hk⟩
  · exact ⟨[], by rw [hk]; rfl, fits_nil inner, Or.inl ⟨Or.inl hk, rfl⟩⟩
  · exact ⟨[], by rw [hk]; rfl, fits_nil inner, Or.inl ⟨Or.inr hk, rfl⟩⟩
  · refine ⟨ms, ?_, fun keys ns hns => ?_, Or.inr hk⟩
    · rw [hk]
      cases ms <;> rfl
    · have := h (k :: keys) ns (.member hm hns)
      rwa [Item.at?, hk] at this

theorem Fits.put (h : old.Fits ((k, v) :: rest)) (hk : ∀ m ∈ rest, k.Apart m.1) (result : Item) :
    Fits (Item.put k result old) rest := by
  intro keys ns hns
  cases hns with
  | self => exact Or.inr (Or.inr ⟨_, rfl⟩)
  | member hm hv =>
    have := h _ ns (.member (List.mem_cons_of_mem _ hm) hv)
    rwa [Item.at?, Item.find?_put_of_apart (hk _ hm), ← Item.at?]

theorem merge_leaf (hv : v.members? = none) (old rest : Members) :
    old.merge ((k, v) :: rest) = merge (Item.put k v old) rest := by
  rw [merge]
  rintro inner rfl
  cases hv

theorem merge_inner (hbase : ofValue (Item.find? k old) = .ok base)
    (hmerged : base.merge inner = .ok merged) (rest : Members) :
    old.merge ((k, .map inner) :: rest) = merge (Item.put k (.map merged) old) rest := by
  rw [merge, hbase]
  simp only [bind, Except.bind, hmerged]

/-- A layer that fits can be set, and brings in no placeholders. -/
theorem IsNested.exists_merge (hn : new.IsNested) (hf : old.Fits new) :
    ∃ merged, old.merge new = .ok merged ∧ Sets old new merged ∧
      (Item.hasPlaceholderMembers old = false → Item.hasPlaceholderMembers new = false →
        Item.hasPlaceholderMembers merged = false) := by
  induction hn generalizing old with
  | nil => exact ⟨old, by rw [merge], sets_nil old, fun hold _ => hold⟩
  | @leaf k v rest hv hk _ ih =>
    obtain ⟨merged, hmerged, hsets, hfree⟩ := ih (hf.put hk v)
    refine ⟨merged, (merge_leaf hv old rest).trans hmerged, ?_, fun hold hnew => ?_⟩
    · exact hsets.cons hk (overlays_leaf _ hv)
    · obtain ⟨hv, hrest⟩ := Bool.or_eq_false_iff.1 hnew
      exact hfree (Item.hasPlaceholderMembers_put hv hold) hrest
  | @inner k inner rest _ hk _ ihinner ih =>
    obtain ⟨base, hbase, hfits, hfound⟩ := hf.exists_base List.mem_cons_self
    obtain ⟨result, hresult, hinner, hinnerFree⟩ := ihinner hfits
    obtain ⟨merged, hmerged, hsets, hfree⟩ := ih (hf.put hk (.map result))
    refine ⟨merged, (merge_inner hbase hresult rest).trans hmerged, ?_, fun hold hnew => ?_⟩
    · exact hsets.cons hk (hinner.overlays.of_base hfound)
    · obtain ⟨hv, hrest⟩ := Bool.or_eq_false_iff.1 hnew
      have hbaseFree : Item.hasPlaceholderMembers base = false := by
        rcases hfound with ⟨-, rfl⟩ | hfound
        · rfl
        · exact Item.hasPlaceholder_of_find? hold hfound
      exact hfree (Item.hasPlaceholderMembers_put (hinnerFree hbaseFree hv) hold) hrest

theorem merge_cons (old rest : Members) (m : Item × Item) :
    old.merge (m :: rest) = (old.merge [m]).bind (merge · rest) := by
  obtain ⟨k, v⟩ := m
  by_cases hv : ∃ inner, v = .map inner
  · obtain ⟨inner, rfl⟩ := hv
    rw [merge, merge]
    cases ofValue (Item.find? k old) with
    | error e => rfl
    | ok base => cases hinner : base.merge inner <;> simp [bind, Except.bind, hinner, merge]
  · rw [merge, merge, merge]
    · rfl
    all_goals exact fun inner h => hv ⟨inner, h⟩

/-- Members that can be set at once can be set one by one. -/
theorem mergeEach_of_merge (h : old.merge new = .ok merged) :
    old.mergeEach new = (.ok (), merged) := by
  induction new generalizing old with
  | nil =>
    rw [merge] at h
    cases h
    rfl
  | cons m rest ih =>
    rw [merge_cons] at h
    cases hm : old.merge [m] with
    | error e =>
      rw [hm] at h
      cases h
    | ok mid =>
      rw [hm] at h
      rw [mergeEach, hm]
      exact ih h

end Members

namespace Settings

variable {path : List String} {layers : List Members} {layer : Members} {word : Option Item}

/-! ### The last word -/

/-- What a layer says of a path: its value, or that there is none, because something else than named
values stands on the way to it. -/
def Says (layer : Members) (path : List String) : Option Item → Prop
  | some v => follow (.map layer) path = some v
  | none => Bars (.map layer) path

/-- What the last layer says that says anything, or nothing if there is no such layer. -/
inductive LastWord (path : List String) : List Members → Option Item → Prop
  | last {before after : List Members} {layer : Members} {word : Option Item}
      (hword : Says layer path word) (hafter : ∀ l ∈ after, ∀ w, ¬ Says l path w) :
    LastWord path (before ++ layer :: after) word
  | silent {layers : List Members} (h : ∀ l ∈ layers, ∀ w, ¬ Says l path w) :
    LastWord path layers none

theorem lastWord_concat : LastWord path (layers ++ [layer]) word ↔
    Says layer path word ∨ (∀ w, ¬ Says layer path w) ∧ LastWord path layers word := by
  constructor
  · intro h
    generalize hls : layers ++ [layer] = ls at h
    cases h with
    | @last before after l _ hword hafter =>
      rcases List.eq_nil_or_concat after with rfl | ⟨after, m, rfl⟩
      · obtain ⟨-, hl⟩ := List.append_inj' hls rfl
        cases hl
        exact Or.inl hword
      · rw [List.concat_eq_append, ← List.cons_append, ← List.append_assoc] at hls
        obtain ⟨rfl, hm⟩ := List.append_inj' hls rfl
        cases hm
        simp only [List.concat_eq_append, List.forall_mem_append,
          List.forall_mem_singleton] at hafter
        exact Or.inr ⟨hafter.2, .last hword hafter.1⟩
    | silent h =>
      subst hls
      simp only [List.forall_mem_append, List.forall_mem_singleton] at h
      exact Or.inr ⟨h.2, .silent h.1⟩
  · rintro (hword | ⟨hsilent, h⟩)
    · exact .last hword (by simp)
    · cases h with
      | @last before after l _ hword hafter =>
        rw [List.append_assoc, List.cons_append]
        refine .last hword ?_
        simpa [or_imp, forall_and] using ⟨hafter, hsilent⟩
      | silent h =>
        refine .silent ?_
        simpa [or_imp, forall_and] using ⟨h, hsilent⟩

theorem exists_lastWord (path : List String) (layers : List Members) :
    ∃ word, LastWord path layers word := by
  induction layers using List.reverseRecOn with
  | nil => exact ⟨none, .silent (by simp)⟩
  | append_singleton layers layer ih =>
    obtain ⟨word, hword⟩ := ih
    by_cases hsays : ∃ w, Says layer path w
    · obtain ⟨w, hw⟩ := hsays
      exact ⟨w, lastWord_concat.2 (Or.inl hw)⟩
    · exact ⟨word, lastWord_concat.2 (Or.inr ⟨not_exists.1 hsays, hword⟩)⟩

theorem follow_eq_of_lastWord (h : LastWord path [layer] word) :
    follow (.map layer) path = word := by
  rw [← List.nil_append [layer], lastWord_concat] at h
  rcases h with hword | ⟨hsilent, h⟩
  · cases word with
    | none => exact follow_of_bars hword
    | some v => exact hword
  · have hnone : word = none := by
      generalize hls : ([] : List Members) = ls at h
      cases h with
      | last _ _ => simp at hls
      | silent _ => rfl
    rw [hnone, Option.eq_none_iff_forall_ne_some]
    exact fun v hv => hsilent (some v) hv

theorem Overlays.follow_of_says {old merged : Members}
    (h : Overlays (some (.map old)) (.map layer) (.map merged))
    (hleaf : ∀ v, follow (.map layer) path = some v → v.members? = none)
    (hword : Says layer path word) : follow (.map merged) path = word := by
  cases word with
  | none => exact h.barred hword
  | some v => exact h.value hword (hleaf v hword)

theorem Overlays.follow_of_silent {old merged : Members}
    (h : Overlays (some (.map old)) (.map layer) (.map merged)) (hpath : path ≠ [])
    (hsilent : ∀ w, ¬ Says layer path w) :
    follow (.map merged) path = follow (.map old) path := by
  refine h.silent hpath ?_ (hsilent none)
  rw [Option.eq_none_iff_forall_ne_some]
  exact fun v hv => hsilent (some v) hv

/-- Layers that fit can be set one after the other, and then the last word counts. -/
theorem exists_foldlM_merge {base : Members} (hnested : ∀ l ∈ layers, l.IsNested)
    (hfits : ∀ before layer after merged, layers = before ++ layer :: after →
      before.foldlM Members.merge base = .ok merged → merged.Fits layer) :
    ∃ merged, layers.foldlM Members.merge base = .ok merged ∧
      ∀ path, path ≠ [] →
        (∀ l ∈ layers, ∀ v, follow (.map l) path = some v → v.members? = none) →
        ∀ word, LastWord path (base :: layers) word → follow (.map merged) path = word := by
  induction layers using List.reverseRecOn with
  | nil => exact ⟨base, rfl, fun path _ _ word h => follow_eq_of_lastWord h⟩
  | append_singleton layers layer ih =>
    rw [List.forall_mem_append, List.forall_mem_singleton] at hnested
    obtain ⟨old, hold, hwords⟩ := ih hnested.1 fun before l after merged he =>
      hfits before l (after ++ [layer]) merged (by rw [he]; simp)
    obtain ⟨merged, hmerged, hsets, -⟩ :=
      hnested.2.exists_merge (hfits layers layer [] old rfl hold)
    refine ⟨merged, ?_, fun path hpath hleaf word hword => ?_⟩
    · rw [List.foldlM_append, hold]
      change [layer].foldlM Members.merge old = _
      rw [List.foldlM_cons, hmerged]
      rfl
    · rw [List.forall_mem_append, List.forall_mem_singleton] at hleaf
      rw [← List.cons_append, lastWord_concat] at hword
      rcases hword with hword | ⟨hsilent, hword⟩
      · exact hsets.overlays.follow_of_says hleaf.2 hword
      · rw [hsets.overlays.follow_of_silent hpath hsilent]
        exact hwords path hpath hleaf.1 word hword

/-! ### Settings -/

/-- Updates one after the other, all of which succeed. -/
inductive Updates : Settings → List Members → Settings → Prop
  | nil (s : Settings) : Updates s [] s
  | cons {s t u : Settings} {layer : Members} {rest : List Members}
      (h : s.update (.map layer) = (.ok (), t)) (hrest : Updates t rest u) :
    Updates s (layer :: rest) u

theorem updates_of_foldlM {updates : List Members} {old merged : Members}
    (h : updates.foldlM Members.merge old = .ok merged) : Updates ⟨old⟩ updates ⟨merged⟩ := by
  induction updates generalizing old with
  | nil =>
    cases h
    exact .nil _
  | cons layer rest ih =>
    rw [List.foldlM_cons] at h
    cases hlayer : old.merge layer with
    | error e =>
      rw [hlayer] at h
      cases h
    | ok mid =>
      rw [hlayer] at h
      refine .cons ?_ (ih h)
      rw [update, Members.mergeEach_of_merge hlayer]

/-- A file without placeholders is set on top of the built-in values, whatever the environment. An
empty value counts as no values. -/
theorem load_eq_ok {read : Reader} {file : String} {value : Item} {loaded merged : Members}
    (hread : read file = .ok value)
    (hvalue : value = .map loaded ∨ value.isEmptyValue = true ∧ loaded = [])
    (hmerged : defaults.merge loaded = .ok merged)
    (hfree : Item.hasPlaceholderMembers merged = false) (env : Environment) :
    load read env file = .ok ⟨merged⟩ := by
  have hresolved := Item.resolveMembers_eq_ok read env merged hfree
  by_cases hempty : value.isEmptyValue = true
  · have hloaded : loaded = [] := by
      rcases hvalue with rfl | ⟨-, h⟩
      · exact List.isEmpty_iff.1 hempty
      · exact h
    rw [hloaded, Members.merge] at hmerged
    cases hmerged
    simp [load, hread, Except.mapError, bind, Except.bind, hempty, hresolved]
  · rcases hvalue with rfl | ⟨h, -⟩
    · simp [load, hread, Except.mapError, bind, Except.bind, hempty, hmerged, hresolved]
    · exact absurd h hempty

theorem pathOf_intercalate (hpath : path ≠ []) (hnames : ∀ name ∈ path, '.' ∉ name.toList) :
    pathOf (".".intercalate path) = path := by
  have hsplit : List.splitOn '.' (['.'].intercalate (path.map String.toList)) =
      path.map String.toList :=
    List.splitOn_intercalate '.' (by simpa using hnames) (by simpa using hpath)
  rw [pathOf, String.toList_intercalate, show ".".toList = ['.'] from rfl, hsplit, List.map_map]
  exact List.map_id'' (fun name => String.ofList_toList) path

/-- The value at a path is the last word that the layers have on it: the built-in values, those of
the file, however it is read, and the updates one after the other. The layers may be nested to any
depth, as long as named values come upon nothing else than named values or null. Any text is a path,
with its points between the names. -/
theorem get?_layered {read : Reader} {file : String} {value : Item} {loaded : Members}
    {updates : List Members} (hread : read file = .ok value)
    (hvalue : value = .map loaded ∨ value.isEmptyValue = true ∧ loaded = [])
    (hfree : (Item.map loaded).hasPlaceholder = false)
    (hnested : ∀ layer ∈ loaded :: updates, layer.IsNested)
    (hfits : ∀ before layer after merged, loaded :: updates = before ++ layer :: after →
      before.foldlM Members.merge defaults = .ok merged → merged.Fits layer)
    (hnames : ∀ name ∈ path, '.' ∉ name.toList)
    (hpath : ∀ layer ∈ loaded :: updates, ∀ v, follow (.map layer) path = some v →
      v.members? = none) (env : Environment) :
    ∃ s t, load read env file = .ok s ∧ Updates s updates t ∧
      (∃ word, LastWord path (defaults :: loaded :: updates) word) ∧
      ∀ word default, LastWord path (defaults :: loaded :: updates) word →
        (t.get? (".".intercalate path)).getD default = word.getD default := by
  have hne : path ≠ [] := by
    rintro rfl
    cases hpath loaded List.mem_cons_self (.map loaded) rfl
  obtain ⟨merged, hmerged, hwords⟩ := exists_foldlM_merge hnested hfits
  obtain ⟨first, hfirst, -, hfirstFree⟩ :=
    (hnested loaded List.mem_cons_self).exists_merge (hfits [] loaded updates defaults rfl rfl)
  rw [List.foldlM_cons, hfirst] at hmerged
  refine ⟨⟨first⟩, ⟨merged⟩, load_eq_ok hread hvalue hfirst (hfirstFree (by decide) hfree) env,
    updates_of_foldlM hmerged, exists_lastWord _ _, fun word default hword => ?_⟩
  rw [get?, pathOf_intercalate hne hnames, hwords path hne hpath word hword]

/-- The options of the search are no named values. -/
def cleared : Members := named [("engine", .null)]

/-- Options of the search: a selector and its ratio. -/
def options : Members := named [("selector", .str "ratio"), ("pick_given_ratio", .int 2)]

def chosen : Members := named [("engine", .map options)]

def isCleared : Except Yaml.Error Item → Bool
  | .ok (.map [(.str k, .null)]) => k == "engine"
  | _ => false

theorem read_cleared : Yaml.read "engine: null" = .ok (.map cleared) := by
  have hcleared : isCleared (Yaml.read "engine: null") = true := by decide +kernel
  generalize Yaml.read "engine: null" = value at hcleared
  rw [isCleared.eq_def] at hcleared
  split at hcleared
  · next k =>
    rw [beq_iff_eq.1 hcleared]
    rfl
  · cases hcleared

theorem isNested_cleared : cleared.IsNested := .leaf rfl (by simp) .nil

theorem isNested_options : options.IsNested := by
  refine .leaf rfl ?_ (.leaf rfl (by simp) .nil)
  simpa using Item.apart_str (by simp)

theorem isNested_chosen : chosen.IsNested := .inner isNested_options (by simp) .nil

theorem fits_cleared : defaults.Fits cleared := by
  intro keys inner hholds
  cases hholds with
  | self => exact Or.inr (Or.inr ⟨defaults, rfl⟩)
  | member hm hv =>
    obtain ⟨rfl, rfl⟩ : _ = Item.str "engine" ∧ _ = Item.null := by simpa [cleared, named] using hm
    cases hv

theorem fits_chosen : Members.Fits (Item.put (.str "engine") .null defaults) chosen := by
  intro keys inner hholds
  cases hholds with
  | self => exact Or.inr (Or.inr ⟨_, rfl⟩)
  | member hm hv =>
    obtain ⟨rfl, rfl⟩ : _ = Item.str "engine" ∧ _ = Item.map options := by
      simpa [chosen, named] using hm
    cases hv with
    | self => exact Or.inr (Or.inl (by rw [Item.at?, Item.find?_put_self]; rfl))
    | member hm hv =>
      rcases (by simpa [options, named] using hm : _ = Item.str "selector" ∧ _ = Item.str "ratio" ∨
        _ = Item.str "pick_given_ratio" ∧ _ = Item.int 2) with ⟨-, rfl⟩ | ⟨-, rfl⟩ <;> cases hv

theorem fits_layers : ∀ before layer after merged, [cleared, chosen] = before ++ layer :: after →
    before.foldlM Members.merge defaults = .ok merged → merged.Fits layer := by
  intro before layer after merged hlayers hmerged
  rcases before with _ | ⟨first, _ | ⟨second, before⟩⟩
  · cases hlayers
    cases hmerged
    exact fits_cleared
  · cases hlayers
    have hfirst : defaults.merge cleared = .ok (Item.put (.str "engine") .null defaults) := by
      rw [cleared, named, List.map_cons, Members.merge_leaf rfl, List.map_nil, Members.merge]
    rw [List.foldlM_cons, hfirst] at hmerged
    cases hmerged
    exact fits_chosen
  · simp at hlayers

theorem follow_chosen : follow (.map chosen) ["engine", "factoring"] = none := by
  rw [chosen, named, List.map_cons, follow_map_cons, Members.get?, Item.find?_cons_self,
    Option.bind_some, follow_map_cons, options, named, List.map_cons, List.map_cons, Members.get?,
    Item.find?_cons_of_ne (by simp), Item.find?_cons_of_ne (by simp)]
  rfl

theorem follow_cleared : follow (.map cleared) ["engine"] = some .null := by
  rw [cleared, named, List.map_cons, follow_map_cons, Members.get?, Item.find?_cons_self]
  rfl

theorem bars_cleared : Bars (.map cleared) ["engine", "factoring"] :=
  ⟨["engine"], .null, ⟨["factoring"], rfl⟩, by simp, follow_cleared, rfl⟩

theorem not_bars_chosen : ¬ Bars (.map chosen) ["engine", "factoring"] := by
  intro h
  obtain ⟨v, hv, h⟩ := bars_map_cons.1 h
  rw [chosen, named, List.map_cons, Members.get?, Item.find?_cons_self] at hv
  cases hv
  obtain ⟨u, -, h⟩ := bars_map_cons.1 h
  exact not_bars_nil u h

-- the update brings back named values, but not those that the file has done away with
theorem get?_layered_cleared :
    Yaml.read "engine: null" = .ok (.map cleared) ∧ (Item.map cleared).hasPlaceholder = false ∧
      cleared.IsNested ∧ chosen.IsNested ∧
      LastWord ["engine", "factoring"] [defaults, cleared, chosen] none ∧
      ∃ s t, load Yaml.read [] "engine: null" = .ok s ∧ Updates s [chosen] t ∧
        (t.get? "engine.factoring").getD (.str "not set") = .str "not set" := by
  have hlast : LastWord ["engine", "factoring"] ([defaults] ++ cleared :: [chosen]) none := by
    refine .last bars_cleared ?_
    rw [List.forall_mem_singleton]
    rintro (_ | v) hsays
    · exact not_bars_chosen hsays
    · cases follow_chosen.symm.trans hsays
  have hpath : ∀ layer ∈ [cleared, chosen], ∀ v,
      follow (.map layer) ["engine", "factoring"] = some v → v.members? = none := by
    simp [follow_chosen, follow_of_bars bars_cleared]
  have hnested : ∀ layer ∈ [cleared, chosen], layer.IsNested := by
    simp [isNested_cleared, isNested_chosen]
  refine ⟨read_cleared, rfl, isNested_cleared, isNested_chosen, hlast, ?_⟩
  obtain ⟨s, t, hs, ht, -, hget⟩ :=
    get?_layered read_cleared (Or.inl rfl) rfl hnested fits_layers (by decide) hpath []
  exact ⟨s, t, hs, ht, hget none (.str "not set") hlast⟩

end Settings

end Elenchus

import Elenchus.Proofs.ClauseForm

/-! Symbol tables, and what becomes of them when occurrences of symbols are recorded one by one. -/

namespace Elenchus

variable {sig sig' : Signature} {allowReserved : Bool}

/-! ### Entries and uses -/

/-- Predicates and functions with a number of arguments, and nothing that callers may declare
besides. -/
def SymbolEntry.IsPlain (e : SymbolEntry) : Prop :=
  (e.kind = .predicate ∨ e.kind = .function) ∧ ∃ n : Nat, e.arity.int? = some (n : Int)

/-- The same kind and number of arguments, however it was written. -/
def SymbolEntry.Agrees (d e : SymbolEntry) : Prop := d.kind = e.kind ∧ d.arity.int? = e.arity.int?

theorem Item.same_iff_of_int? {i j : Item} {m n : Int} (hi : i.int? = some m)
    (hj : j.int? = some n) : i.same j = true ↔ m = n := by
  cases i <;> cases hi <;> cases j <;> cases hj <;>
    simp [Item.same, Item.number?, Number.eq, Number.compare?, Number.scaled?]

theorem Item.same_str_iff {i : Item} {s : String} : i.same (.str s) = true ↔ i = .str s := by
  cases i <;> simp [same, number?]

/-- How a whole number is written makes no difference to what equals it. -/
theorem Item.same_congr {j : Item} {n : Int} (hj : j.int? = some n) (i : Item) :
    i.same j = i.same (.int n) := by
  cases j <;> cases hj <;> cases i <;> simp [same, number?]

/-- At most one whole number equals a number. -/
theorem Number.int_unique {a : Number} {m n : Int} (hm : a.eq (.int m) = true)
    (hn : a.eq (.int n) = true) : m = n := by
  cases a with
  | int k =>
    simp [Number.eq, Number.compare?, Number.scaled?] at hm hn
    omega
  | float x =>
    cases x with
    | finite s k e =>
      simp [Number.eq, Number.compare?, Number.scaled?] at hm hn
      have hpow : (2 : Int) ^ (-min e 0).toNat ≠ 0 := Int.ne_of_gt (Int.pow_pos (by decide))
      exact Int.eq_of_mul_eq_mul_right hpow (hm.symm.trans hn)
    | infinite s => cases s <;> simp [Number.eq, Number.compare?, Number.scaled?] at hm
    | undefined => simp [Number.eq, Number.compare?, Number.scaled?] at hm

theorem Item.int_unique {i : Item} {m n : Int} (hm : i.same (.int m) = true)
    (hn : i.same (.int n) = true) : m = n := by
  have hnumber : ∀ k : Int, i.same (.int k) = true → ∃ a, i.number? = some a ∧ a.eq (.int k) := by
    intro k hk
    cases i <;> simp_all [same, number?]
  obtain ⟨a, ha, hma⟩ := hnumber m hm
  obtain ⟨b, hb, hnb⟩ := hnumber n hn
  obtain rfl : a = b := Option.some.inj (ha.symm.trans hb)
  exact Number.int_unique hma hnb

namespace SymbolEntry

variable {e u w : SymbolEntry}

/-- A use of a name is as the entry says: of the same kind, and with as many arguments. -/
def Fits (e use : SymbolEntry) : Prop :=
  e.kind.same use.kind = true ∧ e.arity.same use.arity = true

/-- An entry fits uses of one kind and one number of arguments only. -/
theorem Fits.agrees (hu : e.Fits u) (hw : e.Fits w) (pu : u.IsPlain) (pw : w.IsPlain) :
    u.Agrees w := by
  obtain ⟨hku, m, hm⟩ := pu
  obtain ⟨hkw, n, hn⟩ := pw
  have harity : (m : Int) = n := by
    refine Item.int_unique (i := e.arity) ?_ ?_
    · rw [← Item.same_congr hm]
      exact hu.2
    · rw [← Item.same_congr hn]
      exact hw.2
  refine ⟨?_, by rw [hm, hn, harity]⟩
  have hku' := hu.1
  have hkw' := hw.1
  rcases hku with hku | hku <;> rcases hkw with hkw | hkw <;> rw [hku, hkw]
  all_goals
    rw [hku, SymbolKind.same, SymbolKind.label, Item.same_str_iff] at hku'
    rw [hkw, SymbolKind.same, SymbolKind.label, Item.same_str_iff, hku'] at hkw'
    simp at hkw'

theorem fits_congr (h : u.Agrees w) (pu : u.IsPlain) : e.Fits u ↔ e.Fits w := by
  obtain ⟨hkind, harity⟩ := h
  obtain ⟨-, n, hn⟩ := pu
  rw [Fits, Fits, hkind, Item.same_congr hn, Item.same_congr (harity.symm.trans hn)]

theorem IsPlain.fits_self (pu : u.IsPlain) : u.Fits u := by
  obtain ⟨hkind, n, hn⟩ := pu
  refine ⟨?_, (Item.same_iff_of_int? hn hn).2 rfl⟩
  rcases hkind with hkind | hkind <;> simp [hkind, SymbolKind.same, SymbolKind.label, Item.same]

end SymbolEntry

/-! ### Recording occurrences -/

namespace Signature

variable {kind : SymbolKind} {s : Symbol} {u : SymbolUse} {us : List SymbolUse}

/-- The table has a symbol with its kind and number of arguments. -/
def Knows (sig : Signature) (kind : SymbolKind) (s : Symbol) : Prop :=
  ∃ e, sig.find? s.name = some e ∧ e.kind = kind ∧ e.arity.int? = some (s.arity : Int)

def IsPlain (sig : Signature) : Prop := ∀ n e, sig.find? n = some e → e.IsPlain

theorem Knows.mono (h : sig.Knows kind s) (hg : sig.Grows sig') : sig'.Knows kind s := by
  obtain ⟨e, he, hk⟩ := h
  exact ⟨e, hg.find _ e he, hk⟩

theorem Knows.contains (h : sig.Knows kind s) : sig.contains s.name = true := by
  obtain ⟨e, he, -⟩ := h
  exact Option.isSome_iff_exists.2 ⟨e, he⟩

theorem mismatch_eq_none_iff {name : Item} {e use : SymbolEntry} :
    mismatch name e use = none ↔ e.Fits use := by
  rw [mismatch, SymbolEntry.Fits]
  split
  · next h => simp_all
  · next h =>
    split
    · next h' => simp_all
    · next h' => simp_all

/-- An occurrence is recorded if its name may be used and the table has nothing against it. -/
theorem recordUse_eq_ok_iff : sig.recordUse allowReserved u = .ok sig' ↔
    u.name ∉ sig.skolems ∧ (isReserved u.name = true → allowReserved = true) ∧
      (sig.find? u.name = none ∧
          sig' = { sig with symbols := sig.symbols ++ [(u.name, u.entry)] } ∨
        ∃ e, sig.find? u.name = some e ∧ e.Fits u.entry ∧ sig' = sig) := by
  rw [recordUse]
  by_cases hs : u.name ∈ sig.skolems
  · simp [isSkolem, hs]
  · by_cases hr : isReserved u.name = true ∧ allowReserved = false
    · simp [isSkolem, hs, hr]
    · have hr' : isReserved u.name = true → allowReserved = true := by simpa using hr
      rw [if_neg (by simpa [isSkolem] using hs), if_neg (by simpa using hr'), declare]
      split
      · next hn =>
        constructor
        · rintro ⟨⟩
          exact ⟨hs, hr', Or.inl ⟨hn, rfl⟩⟩
        · rintro ⟨-, -, ⟨-, rfl⟩ | ⟨e, he, -⟩⟩
          · rfl
          · simp [hn] at he
      · next e he =>
        split
        · next hm =>
          have hno : ¬ e.Fits u.entry := fun hf => by simp [mismatch_eq_none_iff.2 hf] at hm
          simp [he, hno]
        · next hm =>
          constructor
          · rintro ⟨⟩
            exact ⟨hs, hr', Or.inr ⟨e, he, mismatch_eq_none_iff.1 hm, rfl⟩⟩
          · rintro ⟨-, -, ⟨hn, -⟩ | ⟨-, -, -, rfl⟩⟩
            · simp [he] at hn
            · rfl

theorem record_cons_eq_none_iff : sig.record allowReserved (u :: us) = (sig', none) ↔
    ∃ sig₁, sig.recordUse allowReserved u = .ok sig₁ ∧
      sig₁.record allowReserved us = (sig', none) := by
  rw [record]
  split
  · next he => simp [he]
  · next sig₁ hok => simp [hok]

/-- What is recorded fits every occurrence. -/
theorem record_fits (hus : ∀ u ∈ us, u.entry.IsPlain)
    (h : sig.record allowReserved us = (sig', none)) :
    ∀ u ∈ us, ∃ e, sig'.find? u.name = some e ∧ e.Fits u.entry := by
  induction us generalizing sig with
  | nil => simp
  | cons t us ih =>
    obtain ⟨sig₁, ht, hrest⟩ := record_cons_eq_none_iff.1 h
    intro u hu
    rcases List.mem_cons.1 hu with rfl | hu
    · obtain ⟨hgrows, -⟩ := record_grows hrest
      obtain ⟨-, -, ⟨hnone, rfl⟩ | ⟨e, he, hfits, rfl⟩⟩ := recordUse_eq_ok_iff.1 ht
      · refine ⟨u.entry, hgrows.find _ _ ?_, (hus u (List.mem_cons_self ..)).fits_self⟩
        exact (find?_append_new hnone).trans (if_pos rfl)
      · exact ⟨e, hgrows.find _ _ he, hfits⟩
    · exact ih (fun v hv => hus v (List.mem_cons_of_mem _ hv)) hrest u hu

/-- Names that are new come in once, each as it occurs, and nothing else of the table changes. -/
theorem record_adds (h : sig.record allowReserved us = (sig', none)) :
    ∃ added, sig' = { sig with symbols := sig.symbols ++ added } ∧ (added.map Prod.fst).Nodup ∧
      ∀ p ∈ added, sig.find? p.1 = none ∧ ∃ u ∈ us, p = (u.name, u.entry) := by
  induction us generalizing sig with
  | nil =>
    cases h
    exact ⟨[], by simp, by simp, by simp⟩
  | cons t us ih =>
    obtain ⟨sig₁, ht, hrest⟩ := record_cons_eq_none_iff.1 h
    obtain ⟨added, rfl, hnodup, hadded⟩ := ih hrest
    obtain ⟨-, -, ⟨hnone, rfl⟩ | ⟨e, -, -, rfl⟩⟩ := recordUse_eq_ok_iff.1 ht
    · -- the names that come in later are not the one that has just come in
      have hfind : ∀ p ∈ added, p.1 ≠ t.name ∧ sig.find? p.1 = none := by
        intro p hp
        have hp' := (hadded p hp).1
        rw [find?, find?_append_new hnone] at hp'
        split at hp'
        · cases hp'
        · next hne => exact ⟨hne, hp'⟩
      refine ⟨(t.name, t.entry) :: added, by simp, ?_, fun p hp => ?_⟩
      · rw [List.map_cons, List.nodup_cons]
        refine ⟨fun hm => ?_, hnodup⟩
        obtain ⟨p, hp, heq⟩ := List.mem_map.1 hm
        exact (hfind p hp).1 heq
      · rcases List.mem_cons.1 hp with rfl | hp
        · exact ⟨hnone, t, List.mem_cons_self .., rfl⟩
        · obtain ⟨-, u, hu, heq⟩ := hadded p hp
          exact ⟨(hfind p hp).2, u, List.mem_cons_of_mem _ hu, heq⟩
    · refine ⟨added, rfl, hnodup, fun p hp => ?_⟩
      obtain ⟨hnone, u, hu, heq⟩ := hadded p hp
      exact ⟨hnone, u, List.mem_cons_of_mem _ hu, heq⟩

/-- What an extended table knows is old or comes from the extension. -/
theorem find?_extended {added : List (String × SymbolEntry)} {n : String} {e : SymbolEntry}
    (h : find? { sig with symbols := sig.symbols ++ added } n = some e) :
    sig.find? n = some e ∨ sig.find? n = none ∧ (n, e) ∈ added := by
  rw [find?, List.lookup_append] at h
  cases hold : sig.find? n with
  | some d =>
    rw [find?] at hold
    rw [hold, Option.some_or] at h
    exact Or.inl h
  | none =>
    rw [find?] at hold
    rw [hold, Option.none_or] at h
    obtain ⟨before, after, heq, -⟩ := List.lookup_eq_some_iff.1 h
    exact Or.inr ⟨rfl, by simp [heq]⟩

/-- In a plain table, plain occurrences are known afterwards as they were used. -/
theorem record_isPlain (hp : sig.IsPlain) (hu : ∀ u ∈ us, u.entry.IsPlain)
    (h : sig.record allowReserved us = (sig', none)) :
    sig'.IsPlain ∧ ∀ u ∈ us, ∃ e, sig'.find? u.name = some e ∧ e.Agrees u.entry := by
  have hplain : sig'.IsPlain := by
    obtain ⟨added, rfl, -, hadded⟩ := record_adds h
    intro n e he
    rcases find?_extended he with hold | ⟨-, hnew⟩
    · exact hp n e hold
    · obtain ⟨-, u, hm, heq⟩ := hadded _ hnew
      cases heq
      exact hu u hm
  refine ⟨hplain, fun u hm => ?_⟩
  obtain ⟨e, he, hfits⟩ := record_fits hu h u hm
  have pe : e.IsPlain := hplain u.name e he
  exact ⟨e, he, pe.fits_self.agrees hfits pe (hu u hm)⟩

/-- The table lets every use of a name pass that the assignment lets pass. The two may have written
the same number of arguments in different ways. -/
def Allows (sig : Signature) (A : String → Option SymbolEntry) : Prop :=
  ∀ n e, sig.find? n = some e →
    ∃ e', A n = some e' ∧ ∀ use : SymbolEntry, use.IsPlain → e'.Fits use → e.Fits use

theorem Allows.recordUse {A : String → Option SymbolEntry} (h : sig.Allows A)
    (hu : u.entry.IsPlain) {e : SymbolEntry} (he : A u.name = some e) (hfits : e.Fits u.entry)
    (hs : u.name ∉ sig.skolems) (hr : isReserved u.name = true → allowReserved = true) :
    ∃ sig₁, sig.recordUse allowReserved u = .ok sig₁ ∧ sig₁.Allows A ∧
      sig₁.skolems = sig.skolems := by
  cases hfind : sig.find? u.name with
  | none =>
    refine ⟨_, recordUse_eq_ok_iff.2 ⟨hs, hr, Or.inl ⟨hfind, rfl⟩⟩, fun n d hd => ?_, rfl⟩
    rw [find?, find?_append_new hfind] at hd
    split at hd
    · next hn =>
      subst hn
      cases hd
      refine ⟨e, he, fun use huse hfit => ?_⟩
      exact (SymbolEntry.fits_congr (hfits.agrees hfit hu huse) hu).1 hu.fits_self
    · exact h n d hd
  | some d =>
    obtain ⟨e', he', hpass⟩ := h _ d hfind
    obtain rfl : e' = e := Option.some.inj (he'.symm.trans he)
    have hd : d.Fits u.entry := hpass u.entry hu hfits
    exact ⟨sig, recordUse_eq_ok_iff.2 ⟨hs, hr, Or.inr ⟨d, hfind, hd, rfl⟩⟩, h, rfl⟩

/-- Where one assignment fits all occurrences, they are recorded in any order. -/
theorem Allows.exists_record {A : String → Option SymbolEntry} (h : sig.Allows A)
    (hus : ∀ u ∈ us, u.entry.IsPlain)
    (hfits : ∀ u ∈ us, ∃ e, A u.name = some e ∧ e.Fits u.entry)
    (hs : ∀ u ∈ us, u.name ∉ sig.skolems)
    (hr : ∀ u ∈ us, isReserved u.name = true → allowReserved = true) :
    ∃ sig', sig.record allowReserved us = (sig', none) := by
  induction us generalizing sig with
  | nil => exact ⟨sig, rfl⟩
  | cons u us ih =>
    rw [List.forall_mem_cons] at hus hfits hs hr
    obtain ⟨e, he, hfit⟩ := hfits.1
    obtain ⟨sig₁, hu, hallows, hsk⟩ := h.recordUse hus.1 he hfit hs.1 hr.1
    obtain ⟨sig', hrest⟩ := ih hallows hus.2 hfits.2 (by rw [hsk]; exact hs.2) hr.2
    exact ⟨sig', record_cons_eq_none_iff.2 ⟨sig₁, hu, hrest⟩⟩

theorem clashes_eq_nil_iff {bound : List String} : sig.clashes bound = [] ↔
    ∀ x ∈ bound, ∀ e, sig.find? x = some e → e.kind.same .function = false := by
  rw [clashes, sortNames, ← List.length_eq_zero_iff, List.length_mergeSort, List.length_eq_zero_iff,
    List.filter_eq_nil_iff]
  simp only [List.mem_eraseDups]
  refine forall₂_congr fun x _ => ?_
  cases hx : sig.find? x with
  | none => simp
  | some e => simp

end Signature

end Elenchus

import Elenchus.Proofs.Evaluation
import Elenchus.Store.Basic
import Mathlib.Data.List.Basic

/-! Literal indexes, read as the list of their entries: one for a key, a clause and a position. -/

namespace Elenchus

/-! ### Buckets -/

namespace Bucket

variable {b : Bucket} {id pos : Nat}

theorem entries_cons (p : Nat × List Nat) (b : Bucket) :
    entries (p :: b) = (p.2.map fun pos => (p.1, pos)) ++ entries b := List.flatMap_cons

theorem entries_add (id pos : Nat) (b : Bucket) :
    (entries (Bucket.add id pos b)).Perm ((id, pos) :: entries b) := by
  induction b with
  | nil => exact .refl _
  | cons p b ih =>
    obtain ⟨i, ps⟩ := p
    rw [Bucket.add]
    split
    · next h =>
      subst h
      simp only [entries_cons, List.map_append, List.append_assoc]
      exact List.perm_middle
    · rw [entries_cons, entries_cons]
      exact (ih.append_left _).trans List.perm_middle

theorem entries_forget (id : Nat) (b : Bucket) :
    entries (Bucket.forget id b) = (entries b).filter fun e => e.1 != id := by
  rw [Bucket.forget]
  induction b with
  | nil => rfl
  | cons p b ih =>
    obtain ⟨i, ps⟩ := p
    rw [entries_cons, List.filter_append, ← ih, List.filter_map, List.filter_cons]
    cases h : i != id with
    | true => simp [entries_cons, Function.comp_def, h]
    | false => simp [Function.comp_def, h]

theorem mem_forget {p : Nat × List Nat} : p ∈ Bucket.forget id b ↔ p ∈ b ∧ p.1 ≠ id := by
  rw [Bucket.forget, List.mem_filter, bne_iff_ne]

theorem forget_forget (id : Nat) (b : Bucket) :
    Bucket.forget id (Bucket.forget id b) = Bucket.forget id b := by
  simp only [Bucket.forget, List.filter_filter, Bool.and_self]

theorem add_ne_nil (id pos : Nat) (b : Bucket) : Bucket.add id pos b ≠ [] := by
  cases b with
  | nil => simp [Bucket.add]
  | cons p b =>
    rw [Bucket.add]
    split <;> simp

/-- Every clause of a bucket comes with a position. -/
theorem positions_add (h : ∀ p ∈ b, p.2 ≠ []) : ∀ p ∈ Bucket.add id pos b, p.2 ≠ [] := by
  induction b with
  | nil => simp [Bucket.add]
  | cons q b ih =>
    obtain ⟨i, ps⟩ := q
    obtain ⟨hq, hb⟩ := List.forall_mem_cons.1 h
    rw [Bucket.add]
    split
    · exact List.forall_mem_cons.2 ⟨by simp, hb⟩
    · exact List.forall_mem_cons.2 ⟨hq, ih hb⟩

end Bucket

/-! ### Entries -/

namespace LiteralIndex

variable {ix : LiteralIndex} {k l : LiteralKey} {b : Bucket} {id pos : Nat}

/-- All that an index has: for each key the clauses with their positions. -/
def entries (ix : LiteralIndex) : List (LiteralKey × Nat × Nat) :=
  ix.flatMap fun e => (Bucket.entries e.2).map fun p => (e.1, p)

theorem entries_cons (e : LiteralKey × Bucket) (ix : LiteralIndex) :
    entries (e :: ix) = ((Bucket.entries e.2).map fun p => (e.1, p)) ++ entries ix :=
  List.flatMap_cons

theorem mem_entries {ps : List Nat} (hb : (k, b) ∈ ix) (hps : (id, ps) ∈ b) (hpos : pos ∈ ps) :
    (k, id, pos) ∈ ix.entries := by
  have hentry : (id, pos) ∈ Bucket.entries b :=
    List.mem_flatMap.2 ⟨(id, ps), hps, List.mem_map_of_mem hpos⟩
  exact List.mem_flatMap.2 ⟨(k, b), hb, List.mem_map_of_mem hentry⟩

theorem entries_add (k : LiteralKey) (id pos : Nat) (ix : LiteralIndex) :
    (entries (LiteralIndex.add k id pos ix)).Perm ((k, id, pos) :: entries ix) := by
  induction ix with
  | nil => exact .refl _
  | cons e ix ih =>
    obtain ⟨l, b⟩ := e
    rw [LiteralIndex.add]
    split
    · next h =>
      subst h
      rw [entries_cons, entries_cons]
      exact ((Bucket.entries_add id pos b).map _).append_right _
    · rw [entries_cons, entries_cons]
      exact (ih.append_left _).trans List.perm_middle

/-- The places that literals with given positions have in a clause. -/
def placesOf (id : Nat) (ps : List (Literal × Nat)) : List (LiteralKey × Nat × Nat) :=
  ps.map fun p => (p.1.key, id, p.2)

theorem entries_foldl_add (ps : List (Literal × Nat)) (id : Nat) (ix : LiteralIndex) :
    (entries (ps.foldl (fun ix p => LiteralIndex.add p.1.key id p.2 ix) ix)).Perm
      (placesOf id ps ++ entries ix) := by
  induction ps generalizing ix with
  | nil => exact .refl _
  | cons p ps ih =>
    have hfirst := (entries_add p.1.key id p.2 ix).append_left (placesOf id ps)
    exact (ih _).trans (hfirst.trans List.perm_middle)

/-! ### Tidy indexes -/

/-- Every key has one bucket, and neither a bucket nor the positions of a clause in it are empty. -/
structure Tidy (ix : LiteralIndex) : Prop where
  keys : (ix.map Prod.fst).Nodup
  buckets : ∀ e ∈ ix, e.2 ≠ [] ∧ ∀ p ∈ e.2, p.2 ≠ []

theorem tidy_nil : Tidy [] := ⟨List.nodup_nil, by simp⟩

theorem tidy_cons : Tidy ((l, b) :: ix) ↔
    (l ∉ ix.map Prod.fst ∧ b ≠ [] ∧ ∀ p ∈ b, p.2 ≠ []) ∧ ix.Tidy := by
  constructor
  · rintro ⟨hkeys, hbuckets⟩
    obtain ⟨hl, hix⟩ := List.nodup_cons.1 hkeys
    obtain ⟨hb, hrest⟩ := List.forall_mem_cons.1 hbuckets
    exact ⟨⟨hl, hb⟩, hix, hrest⟩
  · rintro ⟨⟨hl, hb⟩, hix, hrest⟩
    exact ⟨List.nodup_cons.2 ⟨hl, hix⟩, List.forall_mem_cons.2 ⟨hb, hrest⟩⟩

theorem mem_keys_add {e : LiteralKey} :
    e ∈ (LiteralIndex.add k id pos ix).map Prod.fst → e = k ∨ e ∈ ix.map Prod.fst := by
  induction ix with
  | nil => simp [LiteralIndex.add]
  | cons p ix ih =>
    obtain ⟨l, b⟩ := p
    by_cases h : l = k
    · simp [LiteralIndex.add, h]
    · simp only [LiteralIndex.add, h, if_false, List.map_cons, List.mem_cons]
      rintro (rfl | he)
      · exact Or.inr (Or.inl rfl)
      · exact (ih he).imp_right Or.inr

theorem Tidy.add (h : ix.Tidy) (k : LiteralKey) (id pos : Nat) :
    (LiteralIndex.add k id pos ix).Tidy := by
  induction ix with
  | nil => exact tidy_cons.2 ⟨⟨by simp, by simp, by simp⟩, tidy_nil⟩
  | cons e ix ih =>
    obtain ⟨l, b⟩ := e
    obtain ⟨⟨hl, hb, hps⟩, hix⟩ := tidy_cons.1 h
    rw [LiteralIndex.add]
    split
    · exact tidy_cons.2 ⟨⟨hl, Bucket.add_ne_nil id pos b, Bucket.positions_add hps⟩, hix⟩
    · next hne =>
      exact tidy_cons.2 ⟨⟨fun hm => (mem_keys_add hm).elim hne hl, hb, hps⟩, ih hix⟩

theorem Tidy.addAll (h : ix.Tidy) (id : Nat) (ls : List Literal) : (ix.addAll id ls).Tidy := by
  rw [LiteralIndex.addAll]
  generalize ls.zipIdx = ps
  induction ps generalizing ix with
  | nil => exact h
  | cons p ps ih => exact ih (h.add p.1.key id p.2)

/-- The bucket of a key has the entries with that key. -/
theorem Tidy.entries_bucket (h : ix.Tidy) (k : LiteralKey) :
    (ix.entries.filter fun e => e.1 = k) = (ix.bucket k).entries.map fun p => (k, p) := by
  induction ix with
  | nil => rfl
  | cons e ix ih =>
    obtain ⟨l, b⟩ := e
    obtain ⟨⟨hl, -⟩, hix⟩ := tidy_cons.1 h
    rw [entries_cons, List.filter_append, ih hix, List.filter_map, LiteralIndex.bucket,
      LiteralIndex.bucket, lookup_cons_ite]
    by_cases hk : k = l
    · subst hk
      have hnone : ix.lookup k = none := by
        rw [List.lookup_eq_none_iff]
        intro p hp
        have : p.1 ≠ k := fun he => hl (List.mem_map.2 ⟨p, hp, he⟩)
        simpa using this.symm
      simp [hnone, Function.comp_def, Bucket.entries]
    · simp [hk, Function.comp_def, Ne.symm hk]

/-! ### Forgetting a clause -/

theorem mem_keys_forget : l ∈ (LiteralIndex.forget k id ix).map Prod.fst → l ∈ ix.map Prod.fst := by
  induction ix with
  | nil => exact fun h => h
  | cons e ix ih =>
    obtain ⟨m, b⟩ := e
    rw [LiteralIndex.forget]
    split
    · dsimp only
      split
      · exact List.mem_cons_of_mem m
      · exact fun h => h
    · simp only [List.map_cons, List.mem_cons]
      exact Or.imp_right ih

theorem Tidy.forget (h : ix.Tidy) (k : LiteralKey) (id : Nat) :
    (LiteralIndex.forget k id ix).Tidy := by
  induction ix with
  | nil => exact tidy_nil
  | cons e ix ih =>
    obtain ⟨l, b⟩ := e
    obtain ⟨⟨hl, hb, hps⟩, hix⟩ := tidy_cons.1 h
    rw [LiteralIndex.forget]
    split
    · dsimp only
      split
      · exact hix
      · next hne =>
        refine tidy_cons.2 ⟨⟨hl, by simpa using hne, fun p hp => ?_⟩, hix⟩
        exact hps p (Bucket.mem_forget.1 hp).1
    · exact tidy_cons.2 ⟨⟨fun hm => hl (mem_keys_forget hm), hb, hps⟩, ih hix⟩

/-- A clause that is still in a bucket after it was taken out of the one of `k` was in that bucket
before, which has another key. -/
theorem Tidy.mem_of_mem_forget (h : ix.Tidy) (hb : (l, b) ∈ LiteralIndex.forget k id ix)
    {ps : List Nat} (hps : (id, ps) ∈ b) : (l, b) ∈ ix ∧ l ≠ k := by
  induction ix with
  | nil => cases hb
  | cons e ix ih =>
    obtain ⟨m, c⟩ := e
    obtain ⟨⟨hm, -⟩, hix⟩ := tidy_cons.1 h
    have hrest : (l, b) ∈ ix → l ≠ m := by
      rintro hmem rfl
      exact hm (List.mem_map_of_mem hmem)
    rw [LiteralIndex.forget] at hb
    split at hb
    · next hk =>
      subst hk
      dsimp only at hb
      split at hb
      · exact ⟨List.mem_cons_of_mem _ hb, hrest hb⟩
      · rcases List.mem_cons.1 hb with he | hb
        · obtain ⟨rfl, rfl⟩ := Prod.mk.inj he
          exact absurd rfl (Bucket.mem_forget.1 hps).2
        · exact ⟨List.mem_cons_of_mem _ hb, hrest hb⟩
    · next hk =>
      rcases List.mem_cons.1 hb with he | hb
      · obtain ⟨rfl, rfl⟩ := Prod.mk.inj he
        exact ⟨List.mem_cons_self, hk⟩
      · obtain ⟨hb, hne⟩ := ih hix hb
        exact ⟨List.mem_cons_of_mem _ hb, hne⟩

theorem Tidy.mem_of_mem_forgetAll (h : ix.Tidy) {ls : List Literal}
    (hb : (l, b) ∈ ix.forgetAll id ls) {ps : List Nat} (hps : (id, ps) ∈ b) :
    (l, b) ∈ ix ∧ ∀ m ∈ ls, l ≠ m.key := by
  induction ls generalizing ix with
  | nil => exact ⟨hb, by simp⟩
  | cons m ls ih =>
    obtain ⟨hmem, hne⟩ := ih (h.forget m.key id) hb
    obtain ⟨hmem, hm⟩ := h.mem_of_mem_forget hmem hps
    exact ⟨hmem, List.forall_mem_cons.2 ⟨hm, hne⟩⟩

theorem Tidy.forgetAll (h : ix.Tidy) (id : Nat) (ls : List Literal) :
    (ix.forgetAll id ls).Tidy := by
  induction ls generalizing ix with
  | nil => exact h
  | cons m ls ih => exact ih (h.forget m.key id)

/-! ### The index without a clause -/

/-- What is left of an index when a clause goes out of all its buckets. -/
def erase (ix : LiteralIndex) (id : Nat) : LiteralIndex :=
  (ix.map fun e => (e.1, Bucket.forget id e.2)).filter fun e => !e.2.isEmpty

theorem erase_cons (l : LiteralKey) (b : Bucket) (ix : LiteralIndex) (id : Nat) :
    erase ((l, b) :: ix) id =
      if (Bucket.forget id b).isEmpty then ix.erase id
      else (l, Bucket.forget id b) :: ix.erase id := by
  rw [erase, List.map_cons, List.filter_cons]
  cases (Bucket.forget id b).isEmpty <;> rfl

theorem entries_erase (ix : LiteralIndex) (id : Nat) :
    (ix.erase id).entries = ix.entries.filter fun e => e.2.1 != id := by
  induction ix with
  | nil => rfl
  | cons e ix ih =>
    obtain ⟨l, b⟩ := e
    have hcons : (erase ((l, b) :: ix) id).entries =
        ((Bucket.entries (Bucket.forget id b)).map fun p => (l, p)) ++ (erase ix id).entries := by
      rw [erase_cons]
      split
      · next hempty =>
        -- a bucket that is left empty has no entries
        rw [List.isEmpty_iff.1 hempty]
        rfl
      · rfl
    rw [hcons, entries_cons, Bucket.entries_forget, ih, List.filter_append, List.filter_map]
    rfl

/-- A clause that goes out of one bucket first goes out of all of them just as well. -/
theorem erase_forget (k : LiteralKey) (id : Nat) (ix : LiteralIndex) :
    (LiteralIndex.forget k id ix).erase id = ix.erase id := by
  induction ix with
  | nil => rfl
  | cons e ix ih =>
    obtain ⟨l, b⟩ := e
    rw [LiteralIndex.forget]
    split
    · dsimp only
      split
      · next hempty => rw [erase_cons, if_pos hempty]
      · rw [erase_cons, erase_cons, Bucket.forget_forget]
    · rw [erase_cons, erase_cons, ih]

theorem erase_forgetAll (ix : LiteralIndex) (id : Nat) (ls : List Literal) :
    (ix.forgetAll id ls).erase id = ix.erase id := by
  induction ls generalizing ix with
  | nil => rfl
  | cons m ls ih => exact (ih _).trans (erase_forget m.key id ix)

/-- A clause that no bucket has cannot go. -/
theorem Tidy.erase_eq_self (h : ix.Tidy) (hid : ∀ e ∈ ix, ∀ p ∈ e.2, p.1 ≠ id) :
    ix.erase id = ix := by
  induction ix with
  | nil => rfl
  | cons e ix ih =>
    obtain ⟨l, b⟩ := e
    obtain ⟨⟨-, hb, -⟩, hix⟩ := tidy_cons.1 h
    obtain ⟨hbid, hid⟩ := List.forall_mem_cons.1 hid
    have hforget : Bucket.forget id b = b :=
      List.filter_eq_self.2 fun p hp => by simpa using hbid p hp
    rw [erase_cons, hforget, ih hix hid, if_neg (by simpa using hb)]

/-- The loop over the literals of a clause takes it out of all buckets, if it is in no others. -/
theorem Tidy.forgetAll_eq_erase (h : ix.Tidy) {ls : List Literal}
    (hid : ∀ e ∈ ix, ∀ p ∈ e.2, p.1 = id → ∃ m ∈ ls, m.key = e.1) :
    ix.forgetAll id ls = ix.erase id := by
  rw [← erase_forgetAll ix id ls, (h.forgetAll id ls).erase_eq_self]
  rintro ⟨l, b⟩ hb ⟨i, ps⟩ hps rfl
  obtain ⟨hmem, hne⟩ := h.mem_of_mem_forgetAll hb hps
  obtain ⟨m, hm, hk⟩ := hid _ hmem _ hps rfl
  exact hne m hm hk.symm

end LiteralIndex

end Elenchus

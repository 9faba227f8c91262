import Elenchus.Knowledge.Basic
import Elenchus.Proofs.LiteralIndexes
import Elenchus.Proofs.Literals
import Mathlib.Data.List.Nodup

/-! What the operations of a store do to its active clauses, and why its index stays exact. -/

namespace Elenchus

namespace Arena

variable {a : Arena} {d : Derived} {f g : Filed}

/-- The arena has the clause under its number. -/
def Files (a : Arena) (f : Filed) : Prop := a.get? f.id = some f.derived

theorem files_of_filed? {id : Nat} (h : a.filed? id = some f) : a.Files f ∧ f.id = id := by
  obtain ⟨d, hd, rfl⟩ := Option.map_eq_some_iff.1 h
  exact ⟨hd, rfl⟩

theorem filed?_of_files (h : a.Files f) : a.filed? f.id = some f := by
  rw [filed?, h]
  rfl

theorem get?_add (a : Arena) (d : Derived) (id : Nat) :
    (a.add d).2.get? id = if id = a.size then some d else a.get? id := by
  rw [get?, add, Array.getElem?_push]
  rfl

theorem Files.lt_size (h : a.Files f) : f.id < a.size := by
  obtain ⟨hlt, -⟩ := Array.getElem?_eq_some_iff.1 h
  exact hlt

theorem Files.add (h : a.Files f) (d : Derived) : (a.add d).2.Files f := by
  rw [Files, get?_add, if_neg (Nat.ne_of_lt h.lt_size)]
  exact h

theorem files_add_self (a : Arena) (d : Derived) : (a.add d).2.Files ⟨a.size, d⟩ := by
  rw [Files, get?_add, if_pos rfl]

theorem files_add_cases (h : (a.add d).2.Files f) : a.Files f ∨ f = ⟨a.size, d⟩ := by
  rw [Files, get?_add] at h
  split at h
  · next hid =>
    obtain ⟨id, e⟩ := f
    exact Or.inr (by simp_all)
  · exact Or.inl h

theorem Files.unique (hf : a.Files f) (hg : a.Files g) (h : f.id = g.id) : f = g := by
  obtain ⟨i, d⟩ := f
  obtain ⟨j, e⟩ := g
  obtain rfl : i = j := h
  obtain rfl : d = e := Option.some.inj (hf.symm.trans hg)
  rfl

end Arena

/-! ### Places -/

/-- The places of the literals of a clause. -/
def Filed.places (f : Filed) : List (LiteralKey × Nat × Nat) :=
  LiteralIndex.placesOf f.id f.clause.literals.zipIdx

theorem Filed.mem_places {f : Filed} {k : LiteralKey} {id pos : Nat} :
    (k, id, pos) ∈ f.places ↔ f.id = id ∧ ∃ l, f.clause.literals[pos]? = some l ∧ l.key = k := by
  simp only [Filed.places, LiteralIndex.placesOf, List.mem_map, Prod.mk.injEq, Prod.exists]
  constructor
  · rintro ⟨l, i, hl, rfl, rfl, rfl⟩
    exact ⟨rfl, l, List.mk_mem_zipIdx_iff_getElem?.1 hl, rfl⟩
  · rintro ⟨rfl, l, hl, rfl⟩
    exact ⟨l, pos, List.mk_mem_zipIdx_iff_getElem?.2 hl, rfl, rfl, rfl⟩

theorem Filed.nodup_places (f : Filed) : f.places.Nodup := by
  refine List.Nodup.of_map (fun e : LiteralKey × Nat × Nat => e.2.2) ?_
  have hsnd : f.places.map (fun e : LiteralKey × Nat × Nat => e.2.2) =
      f.clause.literals.zipIdx.map Prod.snd := by
    simp [Filed.places, LiteralIndex.placesOf, Function.comp_def]
  rw [hsnd, List.zipIdx_map_snd]
  exact List.nodup_range' ..

theorem filter_places (id : Nat) (fs : List Filed) :
    (fs.flatMap Filed.places).filter (fun e => e.2.1 != id) =
      (fs.filter fun f => f.id != id).flatMap Filed.places := by
  induction fs with
  | nil => rfl
  | cons f fs ih =>
    have hid : ∀ e ∈ f.places, e.2.1 = f.id := fun e he => (Filed.mem_places.1 he).1.symm
    rw [List.flatMap_cons, List.filter_append, ih, List.filter_cons]
    by_cases hf : f.id = id
    · have hnone : f.places.filter (fun e => e.2.1 != id) = [] :=
        List.filter_eq_nil_iff.2 fun e he => by simp [hid e he, hf]
      simp [hnone, hf]
    · have hall : f.places.filter (fun e => e.2.1 != id) = f.places :=
        List.filter_eq_self.2 fun e he => by simpa [hid e he] using hf
      simp [hall, hf]

/-! ### Active clauses -/

namespace Store

variable {s : Store} {f g : Filed} {d : Derived} {c : Clause} {l m : Literal} {id pos : Nat}

theorem mem_clauses : f ∈ s.clauses ↔ f.id ∈ s.active ∧ s.arena.Files f := by
  constructor
  · intro h
    obtain ⟨id, hid, hf⟩ := List.mem_filterMap.1 h
    obtain ⟨hfiles, rfl⟩ := Arena.files_of_filed? hf
    exact ⟨hid, hfiles⟩
  · rintro ⟨hid, hf⟩
    exact List.mem_filterMap.2 ⟨f.id, hid, Arena.filed?_of_files hf⟩

theorem files_of_mem_clauses (h : f ∈ s.clauses) : s.arena.Files f := (mem_clauses.1 h).2

theorem remove_arena (ids : List Nat) (s : Store) : (ids.foldl remove s).arena = s.arena := by
  induction ids generalizing s with
  | nil => rfl
  | cons id ids ih => exact ih (s.remove id)

theorem activate_arena (s : Store) (f : Filed) : (s.activate f).arena = s.arena := by
  rw [activate]
  split <;> rfl

theorem mem_clauses_activate (hf : s.arena.Files f) :
    g ∈ (s.activate f).clauses ↔ g ∈ s.clauses ∨ g = f := by
  have hid : g.id ∈ (s.activate f).active ↔ g.id ∈ s.active ∨ g.id = f.id := by
    rw [activate]
    split
    · next h =>
      refine ⟨Or.inl, fun hg => hg.elim id fun he => ?_⟩
      simpa [he] using h
    · simp
  rw [mem_clauses, mem_clauses, activate_arena, hid]
  constructor
  · rintro ⟨hg | hg, hfiles⟩
    · exact Or.inl ⟨hg, hfiles⟩
    · exact Or.inr (hfiles.unique hf hg)
  · rintro (⟨hg, hfiles⟩ | rfl)
    · exact ⟨Or.inl hg, hfiles⟩
    · exact ⟨Or.inr rfl, hf⟩

theorem mem_clauses_remove : g ∈ (s.remove id).clauses ↔ g ∈ s.clauses ∧ g.id ≠ id := by
  simp only [mem_clauses, remove, List.mem_filter, bne_iff_ne]
  exact ⟨fun ⟨⟨h, hne⟩, hf⟩ => ⟨⟨h, hf⟩, hne⟩, fun ⟨⟨h, hf⟩, hne⟩ => ⟨⟨h, hne⟩, hf⟩⟩

theorem mem_clauses_removeAll {ids : List Nat} :
    g ∈ (ids.foldl remove s).clauses ↔ g ∈ s.clauses ∧ g.id ∉ ids := by
  induction ids generalizing s with
  | nil => simp
  | cons id ids ih =>
    rw [List.foldl_cons, ih, mem_clauses_remove, List.mem_cons, not_or, and_assoc]

theorem active?_eq_some_iff : s.active? id = some f ↔ f ∈ s.clauses ∧ f.id = id := by
  rw [active?, mem_clauses]
  split
  · next hid =>
    have hid : id ∈ s.active := by simpa using hid
    constructor
    · intro hf
      obtain ⟨hfile, rfl⟩ := Arena.files_of_filed? hf
      exact ⟨⟨hid, hfile⟩, rfl⟩
    · rintro ⟨⟨-, hf⟩, rfl⟩
      exact Arena.filed?_of_files hf
  · next hid =>
    have hid : id ∉ s.active := by simpa using hid
    constructor
    · intro h
      cases h
    · rintro ⟨⟨hf, -⟩, rfl⟩
      exact absurd hf hid

theorem clauses_addToArena (h : ∀ id ∈ s.active, id < s.arena.size) (d : Derived) :
    (s.addToArena d).2.clauses = s.clauses := by
  refine List.filterMap_congr fun id hid => ?_
  have hne : id ≠ s.arena.size := Nat.ne_of_lt (h id hid)
  have hget : (s.addToArena d).2.arena.get? id = s.arena.get? id :=
    (Arena.get?_add s.arena d id).trans (if_neg hne)
  rw [Arena.filed?, Arena.filed?, hget]

theorem clauses_activate (hf : s.arena.Files f) (hn : f.id ∉ s.active) :
    (s.activate f).clauses = s.clauses ++ [f] := by
  have hcontains : s.active.contains f.id = false := by simpa using hn
  rw [activate, hcontains, if_neg (by simp)]
  simp [clauses, Arena.filed?_of_files hf]

theorem clauses_remove (s : Store) (id : Nat) :
    (s.remove id).clauses = s.clauses.filter fun f => f.id != id := by
  simp only [clauses, remove]
  generalize s.active = ids
  induction ids with
  | nil => rfl
  | cons i ids ih =>
    rw [List.filter_cons]
    cases hi : s.arena.filed? i with
    | none => split <;> simp [hi, ih]
    | some f =>
      obtain ⟨-, rfl⟩ := Arena.files_of_filed? hi
      rw [List.filterMap_cons_some hi, List.filter_cons]
      cases f.id != id <;> simp [hi, ih]

theorem nodup_activate (h : s.active.Nodup) (f : Filed) : (s.activate f).active.Nodup := by
  rw [activate]
  split
  · exact h
  · next hn =>
    refine List.nodup_append.2 ⟨h, List.nodup_singleton _, fun a ha b hb => ?_⟩
    rintro rfl
    apply hn
    simpa [List.mem_singleton.1 hb] using ha

/-! ### Exact stores -/

/-- Active numbers belong to clauses and come once, and the index has the places of the active
literals, each once. -/
structure Exact (s : Store) : Prop where
  valid : ∀ id ∈ s.active, id < s.arena.size
  nodup : s.active.Nodup
  tidy : s.index.Tidy
  entries : s.index.entries.Perm (s.clauses.flatMap Filed.places)

theorem exact_start (a : Arena) : Exact { arena := a } :=
  ⟨by simp, List.nodup_nil, LiteralIndex.tidy_nil, .refl _⟩

/-- The active numbers are those of the active clauses, in the same order. -/
theorem Exact.map_id_clauses (h : s.Exact) : s.clauses.map Filed.id = s.active := by
  have hfiled : ∀ id ∈ s.active, ∃ d, s.arena.filed? id = some ⟨id, d⟩ := by
    intro id hid
    have hlt : id < s.arena.entries.size := h.valid id hid
    exact ⟨s.arena.entries[id], by simp [Arena.filed?, Arena.get?, hlt]⟩
  rw [clauses]
  generalize s.active = ids at hfiled
  induction ids with
  | nil => rfl
  | cons id ids ih =>
    obtain ⟨d, hd⟩ := hfiled id (List.mem_cons_self ..)
    rw [List.filterMap_cons_some hd, List.map_cons, ih fun j hj => hfiled j
      (List.mem_cons_of_mem _ hj)]

theorem Exact.nodup_clauses (h : s.Exact) : s.clauses.Nodup :=
  .of_map Filed.id (h.map_id_clauses ▸ h.nodup)

/-- The index has the literals of the active clauses under their keys. -/
theorem Exact.mem_entries_iff (h : s.Exact) {k : LiteralKey} : (k, id, pos) ∈ s.index.entries ↔
    ∃ f ∈ s.clauses, f.id = id ∧ ∃ m, f.clause.literals[pos]? = some m ∧ m.key = k := by
  rw [h.entries.mem_iff, List.mem_flatMap]
  simp only [Filed.mem_places]

theorem Exact.nodup_entries (h : s.Exact) : s.index.entries.Nodup := by
  rw [h.entries.nodup_iff, List.nodup_flatMap]
  refine ⟨fun f _ => f.nodup_places, ?_⟩
  have hids : (s.clauses.map Filed.id).Nodup := h.map_id_clauses ▸ h.nodup
  -- the places of two clauses differ in the number
  refine (List.pairwise_map.1 hids).imp fun hne e hf hg => hne ?_
  exact (Filed.mem_places.1 hf).1.trans (Filed.mem_places.1 hg).1.symm

/-- A clause that a bucket names is active and has a literal with the key of the bucket. -/
theorem Exact.mem_clauses_of_mem_bucket (h : s.Exact) {e : LiteralKey × Bucket} (he : e ∈ s.index)
    {p : Nat × List Nat} (hp : p ∈ e.2) :
    ∃ f ∈ s.clauses, f.id = p.1 ∧ ∃ m ∈ f.clause.literals, m.key = e.1 := by
  obtain ⟨k, b⟩ := e
  obtain ⟨id, ps⟩ := p
  obtain ⟨pos, hpos⟩ := List.exists_mem_of_ne_nil ps ((h.tidy.buckets _ he).2 _ hp)
  obtain ⟨f, hf, hid, m, hm, hk⟩ := h.mem_entries_iff.1 (LiteralIndex.mem_entries he hp hpos)
  exact ⟨f, hf, hid, m, List.mem_of_getElem? hm, hk⟩

theorem Exact.addToArena (h : s.Exact) (d : Derived) : (s.addToArena d).2.Exact where
  valid id hid := by
    have hsize : (s.addToArena d).2.arena.size = s.arena.size + 1 := Array.size_push d
    rw [hsize]
    exact Nat.lt_succ_of_lt (h.valid id hid)
  nodup := h.nodup
  tidy := h.tidy
  entries := by
    rw [clauses_addToArena h.valid]
    exact h.entries

theorem Exact.activate (h : s.Exact) (hf : s.arena.Files f) : (s.activate f).Exact := by
  by_cases hactive : f.id ∈ s.active
  · have hsame : s.activate f = s := by simp [Store.activate, hactive]
    rw [hsame]
    exact h
  · have hnew : s.activate f = { s with
        active := s.active ++ [f.id], index := s.index.addAll f.id f.clause.literals } := by
      simp [Store.activate, hactive]
    refine ⟨fun id hid => ?_, nodup_activate h.nodup f, ?_, ?_⟩
    · rw [activate_arena]
      rw [hnew] at hid
      rcases List.mem_append.1 hid with hid | hid
      · exact h.valid id hid
      · exact List.mem_singleton.1 hid ▸ hf.lt_size
    · rw [hnew]
      exact h.tidy.addAll f.id f.clause.literals
    · rw [clauses_activate hf hactive, List.flatMap_append, List.flatMap_singleton, hnew]
      refine (LiteralIndex.entries_foldl_add _ f.id s.index).trans ?_
      exact (h.entries.append_left _).trans List.perm_append_comm

/-- Looking at the literals of the clause only, removal takes it out of the whole index. -/
theorem Exact.index_remove (h : s.Exact) (id : Nat) : (s.remove id).index = s.index.erase id := by
  have hremove : (s.remove id).index =
      (s.active? id).elim s.index fun f => s.index.forgetAll id f.clause.literals := rfl
  rw [hremove]
  cases hid : s.active? id with
  | none =>
    -- a clause that is not active is in no bucket
    refine (h.tidy.erase_eq_self ?_).symm
    rintro e he p hp rfl
    obtain ⟨f, hf, hfid, -⟩ := h.mem_clauses_of_mem_bucket he hp
    rw [active?_eq_some_iff.2 ⟨hf, hfid⟩] at hid
    cases hid
  | some f =>
    refine h.tidy.forgetAll_eq_erase ?_
    rintro e he p hp rfl
    obtain ⟨g, hg, hgid, hm⟩ := h.mem_clauses_of_mem_bucket he hp
    obtain rfl := Option.some.inj (hid.symm.trans (active?_eq_some_iff.2 ⟨hg, hgid⟩))
    exact hm

theorem Exact.remove (h : s.Exact) (id : Nat) : (s.remove id).Exact where
  valid i hi := h.valid i (List.mem_filter.1 hi).1
  nodup := h.nodup.filter _
  tidy := by
    cases hid : s.active? id with
    | none => simpa [Store.remove, hid] using h.tidy
    | some f => simpa [Store.remove, hid] using h.tidy.forgetAll id f.clause.literals
  entries := by
    rw [clauses_remove, ← filter_places, h.index_remove, LiteralIndex.entries_erase]
    exact h.entries.filter _

theorem Exact.removeAll (h : s.Exact) (ids : List Nat) : (ids.foldl Store.remove s).Exact := by
  induction ids generalizing s with
  | nil => exact h
  | cons id ids ih => exact ih (h.remove id)

theorem Exact.mem_clauses_add (h : s.Exact) (d : Derived) :
    g ∈ (s.addToArena d).2.clauses ↔ g ∈ s.clauses := by
  rw [clauses_addToArena h.valid]

/-! ### Candidates -/

theorem candidateAt_eq_some_iff {e : Nat × Nat} {x : Candidate} : s.candidateAt e = some x ↔
    (x.id, x.position) = e ∧ ∃ f ∈ s.clauses, f.id = x.id ∧
      f.clause.literals[x.position]? = some x.literal := by
  obtain ⟨id, pos, m⟩ := x
  simp only [candidateAt, Option.bind_eq_some_iff, Option.map_eq_some_iff, active?_eq_some_iff,
    Candidate.mk.injEq]
  constructor
  · rintro ⟨f, ⟨hf, hid⟩, l, hl, rfl, rfl, rfl⟩
    exact ⟨rfl, f, hf, hid, hl⟩
  · rintro ⟨rfl, f, hf, hid, hl⟩
    exact ⟨f, ⟨hf, hid⟩, m, hl, rfl, rfl, rfl⟩

theorem Exact.mem_bucket_iff (h : s.Exact) {k : LiteralKey} :
    (id, pos) ∈ (s.index.bucket k).entries ↔ (k, id, pos) ∈ s.index.entries := by
  have hb := h.tidy.entries_bucket k
  constructor
  · intro hm
    have hmem := List.mem_map_of_mem (f := fun p => (k, p)) hm
    rw [← hb] at hmem
    exact (List.mem_filter.1 hmem).1
  · intro hm
    have hmem : (k, id, pos) ∈ s.index.entries.filter fun e => e.1 = k :=
      List.mem_filter.2 ⟨hm, by simp⟩
    rw [hb] at hmem
    obtain ⟨p, hp, he⟩ := List.mem_map.1 hmem
    exact (Prod.mk.inj he).2 ▸ hp

/-- No look-up fails, and the candidates are the literals at the places in the bucket. -/
theorem Exact.candidates?_eq (h : s.Exact) (l : Literal) :
    s.candidates? l = some (s.candidates l) ∧
      s.candidates l = (s.index.bucket l.oppositeKey).entries.filterMap s.candidateAt := by
  have hall : ∀ e ∈ (s.index.bucket l.oppositeKey).entries, (s.candidateAt e).isSome = true := by
    rintro ⟨id, pos⟩ he
    obtain ⟨f, hf, hid, m, hm, -⟩ := h.mem_entries_iff.1 (h.mem_bucket_iff.1 he)
    rw [Option.isSome_iff_exists]
    exact ⟨⟨id, pos, m⟩, candidateAt_eq_some_iff.2 ⟨rfl, f, hf, hid, hm⟩⟩
  have hlook : s.candidates? l =
      some ((s.index.bucket l.oppositeKey).entries.filterMap s.candidateAt) :=
    mapM_eq_some_filterMap hall
  rw [candidates, hlook]
  exact ⟨rfl, rfl⟩

theorem Exact.mem_candidates_iff (h : s.Exact) : ⟨id, pos, m⟩ ∈ s.candidates l ↔
    ∃ f ∈ s.clauses, f.id = id ∧ f.clause.literals[pos]? = some m ∧ m.key = l.oppositeKey := by
  rw [(h.candidates?_eq l).2, List.mem_filterMap]
  simp only [candidateAt_eq_some_iff]
  constructor
  · rintro ⟨e, he, rfl, f, hf, hid, hm⟩
    obtain ⟨g, hg, hgid, n, hn, hk⟩ := h.mem_entries_iff.1 (h.mem_bucket_iff.1 he)
    obtain rfl : g = f :=
      (files_of_mem_clauses hg).unique (files_of_mem_clauses hf) (hgid.trans hid.symm)
    obtain rfl : n = m := Option.some.inj (hn.symm.trans hm)
    exact ⟨g, hf, hid, hm, hk⟩
  · rintro ⟨f, hf, hid, hm, hk⟩
    refine ⟨(id, pos), h.mem_bucket_iff.2 (h.mem_entries_iff.2 ⟨f, hf, hid, m, hm, hk⟩), rfl, f, hf,
      hid, hm⟩

theorem Exact.nodup_candidates (h : s.Exact) (l : Literal) :
    ((s.candidates l).map fun x => (x.id, x.position)).Nodup := by
  have hbucket : (s.index.bucket l.oppositeKey).entries.Nodup := by
    apply List.Nodup.of_map fun p => (l.oppositeKey, p)
    rw [← h.tidy.entries_bucket]
    exact h.nodup_entries.filter _
  rw [(h.candidates?_eq l).2, List.map_filterMap]
  refine hbucket.filterMap fun e e' p he he' => ?_
  obtain ⟨x, hx, rfl⟩ := Option.map_eq_some_iff.1 he
  obtain ⟨y, hy, heq⟩ := Option.map_eq_some_iff.1 he'
  rw [← (candidateAt_eq_some_iff.1 hx).1, ← (candidateAt_eq_some_iff.1 hy).1]
  exact heq.symm

/-! ### Subsumption -/

/-- A store finds a subsumer exactly if it has one; looking at lengths and keys first leaves none
out. -/
theorem isSubsumed_iff : s.isSubsumed c = true ↔ ∃ f ∈ s.clauses, f.clause.Covers c := by
  rw [isSubsumed, findSubsumer, Option.isSome_map, List.find?_isSome]
  refine exists_congr fun f => and_congr_right fun _ => ?_
  rw [Bool.and_eq_true, Clause.subsumes_iff]
  refine ⟨fun h => h.2, fun h => ⟨?_, h⟩⟩
  simpa only [Bool.and_eq_true, decide_eq_true_eq] using ⟨h.1, h.keys⟩

theorem mem_backSubsumed_iff {own : Option Nat} (hf : f ∈ s.clauses) :
    f.id ∈ s.backSubsumed c own ↔ own ≠ some f.id ∧ c.Covers f.clause := by
  constructor
  · intro h
    obtain ⟨g, hg, he⟩ := List.mem_map.1 h
    obtain ⟨hg, hs⟩ := List.mem_filter.1 hg
    obtain rfl : g = f := (files_of_mem_clauses hg).unique (files_of_mem_clauses hf) he
    simp only [Bool.and_eq_true, bne_iff_ne] at hs
    exact ⟨hs.1.1.1, Clause.subsumes_iff.1 hs.2⟩
  · rintro ⟨hown, hc⟩
    refine List.mem_map.2 ⟨f, List.mem_filter.2 ⟨hf, ?_⟩, rfl⟩
    simp only [Bool.and_eq_true, decide_eq_true_eq, bne_iff_ne]
    exact ⟨⟨⟨hown, hc.1⟩, hc.keys⟩, Clause.subsumes_iff.2 hc⟩

theorem Exact.backSubsumed_sublist (h : s.Exact) (c : Clause) (own : Option Nat) :
    (s.backSubsumed c own).Sublist s.active := by
  rw [← h.map_id_clauses]
  exact List.filter_sublist.map Filed.id

/-- The store with a clause that comes in new, before those go that it covers. -/
def withNew (s : Store) (d : Derived) : Store :=
  (s.addToArena d).2.activate ⟨s.arena.size, d⟩

theorem Exact.withNew (h : s.Exact) (d : Derived) : (s.withNew d).Exact :=
  (h.addToArena d).activate (Arena.files_add_self _ d)

theorem Exact.mem_clauses_withNew (h : s.Exact) :
    g ∈ (s.withNew d).clauses ↔ g ∈ s.clauses ∨ g = ⟨s.arena.size, d⟩ := by
  rw [Store.withNew, mem_clauses_activate (Arena.files_add_self _ d), h.mem_clauses_add]

theorem insertMinimal_of_isSubsumed (hs : s.isSubsumed d.clause = true) :
    (s.insertMinimal d).2 = s := by
  simp [insertMinimal, insert, hs]

theorem insertMinimal_of_not_isSubsumed (hs : ¬ s.isSubsumed d.clause = true) :
    (s.insertMinimal d).2 =
      ((s.withNew d).backSubsumed d.clause (some s.arena.size)).foldl remove (s.withNew d) := by
  simp only [insertMinimal, insert, hs, Bool.and_false, Bool.false_eq_true, if_false]
  rfl

/-- A clause that is not subsumed comes in, and what it covers goes. -/
theorem Exact.mem_clauses_insertMinimal (h : s.Exact) (hs : ¬ s.isSubsumed d.clause = true) :
    g ∈ (s.insertMinimal d).2.clauses ↔
      g ∈ s.clauses ∧ ¬ d.clause.Covers g.clause ∨ g = ⟨s.arena.size, d⟩ := by
  rw [insertMinimal_of_not_isSubsumed hs, mem_clauses_removeAll]
  constructor
  · rintro ⟨hg, hkept⟩
    rw [mem_backSubsumed_iff hg] at hkept
    refine (h.mem_clauses_withNew.1 hg).imp_left fun hold => ⟨hold, fun hc => hkept ⟨?_, hc⟩⟩
    -- the new number is none of the old ones
    have hlt := h.valid g.id (mem_clauses.1 hold).1
    rw [ne_eq, Option.some.injEq]
    omega
  · intro hg
    have hmem : g ∈ (s.withNew d).clauses := h.mem_clauses_withNew.2 (hg.imp_left And.left)
    refine ⟨hmem, fun hb => ?_⟩
    obtain ⟨hown, hc⟩ := (mem_backSubsumed_iff hmem).1 hb
    rcases hg with ⟨-, hno⟩ | rfl
    · exact hno hc
    · exact hown rfl

/-- Minimal insertion. A clause that is active afterwards was active or is the new one, and every
clause that was active, and the new one, is covered by an active clause. -/
structure Reduces (s s' : Store) (ds : List Derived) : Prop where
  indexed : s'.Exact
  origin : ∀ f ∈ s'.clauses, f ∈ s.clauses ∨ f.derived ∈ ds
  old : ∀ f ∈ s.clauses, ∃ g ∈ s'.clauses, g.clause.Covers f.clause
  new : ∀ d ∈ ds, ∃ g ∈ s'.clauses, g.clause.Covers d.clause

theorem Exact.insertMinimal (h : s.Exact) (d : Derived) :
    s.Reduces (s.insertMinimal d).2 [d] := by
  by_cases hs : s.isSubsumed d.clause = true
  · obtain ⟨f, hf, hc⟩ := isSubsumed_iff.1 hs
    rw [insertMinimal_of_isSubsumed hs]
    exact ⟨h, fun g hg => Or.inl hg, fun g hg => ⟨g, hg, .refl _⟩, by simpa using ⟨f, hf, hc⟩⟩
  · have hmem : ∀ g, g ∈ (s.insertMinimal d).2.clauses ↔
        g ∈ s.clauses ∧ ¬ d.clause.Covers g.clause ∨ g = ⟨s.arena.size, d⟩ :=
      fun g => h.mem_clauses_insertMinimal hs
    have hnew := (hmem ⟨s.arena.size, d⟩).2 (Or.inr rfl)
    refine ⟨?_, fun g hg => ?_, fun g hg => ?_, ?_⟩
    · rw [insertMinimal_of_not_isSubsumed hs]
      exact (h.withNew d).removeAll _
    · rcases (hmem g).1 hg with ⟨hg, -⟩ | rfl
      · exact Or.inl hg
      · exact Or.inr (List.mem_singleton_self _)
    · by_cases hc : d.clause.Covers g.clause
      · exact ⟨_, hnew, hc⟩
      · exact ⟨g, (hmem g).2 (Or.inl ⟨hg, hc⟩), .refl _⟩
    · simpa using ⟨_, hnew, Clause.Covers.refl _⟩

theorem Exact.insertAllMinimal (h : s.Exact) (ds : List Derived) :
    s.Reduces (s.insertAllMinimal ds).2 ds ∧
      (s.insertAllMinimal ds).1.map Prod.snd = ds := by
  induction ds generalizing s with
  | nil =>
    exact ⟨⟨h, fun f hf => Or.inl hf, fun f hf => ⟨f, hf, .refl _⟩, by simp⟩, rfl⟩
  | cons d ds ih =>
    have h₁ := h.insertMinimal d
    obtain ⟨h₂, hds⟩ := ih h₁.indexed
    -- what the first clause left active is covered in the end
    have later : ∀ c : Clause, (∃ g ∈ (s.insertMinimal d).2.clauses, g.clause.Covers c) →
        ∃ g ∈ (s.insertAllMinimal (d :: ds)).2.clauses, g.clause.Covers c := by
      rintro c ⟨g, hg, hc⟩
      obtain ⟨g', hg', hc'⟩ := h₂.old g hg
      exact ⟨g', hg', hc'.trans hc⟩
    refine ⟨⟨h₂.indexed, fun f hf => ?_, fun f hf => later _ (h₁.old f hf), fun e he => ?_⟩, ?_⟩
    · rcases h₂.origin f hf with hf | hf
      · exact (h₁.origin f hf).imp_right fun he => by simp [List.mem_singleton.1 he]
      · exact Or.inr (List.mem_cons_of_mem _ hf)
    · rcases List.mem_cons.1 he with rfl | he
      · exact later _ (h₁.new e (List.mem_singleton_self _))
      · exact h₂.new e he
    · rw [Store.insertAllMinimal, List.map_cons, hds]

end Store

end Elenchus

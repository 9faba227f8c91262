import Elenchus.Proofs.Lineage
import Elenchus.Proofs.WorkingSets

/-! The trace of a clause holds it and all that it was derived from, each once and in order. -/

namespace Elenchus

namespace Arena

variable {a : Arena} {root i p : Nat} {d : Derived} {f : Filed} {pending : List Nat}
  {seen ms : List Met}

/-- `i` is the number of the clause `root` or of one that it was derived from. -/
inductive Reaches (a : Arena) (root : Nat) : Nat → Prop
  | self : Reaches a root root
  | parent {i p : Nat} {d : Derived} (h : Reaches a root i) (hd : a.get? i = some d)
      (hp : .int p ∈ parentsOf d) : Reaches a root p

theorem fetch_int_eq_ok (h : a.fetch (.int i) = .ok f) : f.id = i ∧ a.Files f := by
  have hfiled : a.filed? i = some f := by
    simp only [fetch, Item.number?, Item.int?, Option.bind_some, Int.toNat_natCast] at h
    split at h
    · cases hf : a.filed? i with
      | none => rw [hf] at h; cases h
      | some g => rw [hf] at h; exact congrArg some (Except.ok.inj h)
    · cases h
  obtain ⟨hf, hid⟩ := files_of_filed? hfiled
  exact ⟨hid, hf⟩

/-- Collecting only follows parents. -/
theorem collect_reaches (ho : a.Ordered) {steps : Nat} (hpending : ∀ i ∈ pending, a.Reaches root i)
    (hseen : ∀ m ∈ seen, a.Reaches root m.id)
    (h : a.collect steps (pending.map fun (i : Nat) => .int i) seen = .ok ms) :
    ∀ m ∈ ms, a.Reaches root m.id := by
  induction steps generalizing pending seen with
  | zero =>
    obtain rfl : seen = ms := by cases pending <;> exact Except.ok.inj h
    exact hseen
  | succ steps ih =>
    cases pending with
    | nil =>
      obtain rfl : seen = ms := Except.ok.inj h
      exact hseen
    | cons i pending =>
      have hi : a.Reaches root i := hpending i (List.mem_cons_self ..)
      have hrest : ∀ j ∈ pending, a.Reaches root j := fun j hj =>
        hpending j (List.mem_cons_of_mem _ hj)
      rw [List.map_cons, collect] at h
      split at h
      · exact ih hrest hseen h
      · split at h
        · cases h
        · next f hf =>
          obtain ⟨rfl, hfiles⟩ := fetch_int_eq_ok hf
          obtain ⟨ps, hps, -⟩ := ho f.id f.derived hfiles
          have hstack : (parentsOf f.derived).reverse ++ pending.map (fun (i : Nat) => .int i) =
              (ps.reverse ++ pending).map fun (i : Nat) => .int i := by simp [hps]
          rw [hstack] at h
          refine ih (fun j hj => ?_) (fun m hm => ?_) h
          · rcases List.mem_append.1 hj with hj | hj
            · refine hi.parent hfiles ?_
              rw [hps]
              exact List.mem_map_of_mem (List.mem_reverse.1 hj)
            · exact hrest j hj
          · rcases List.mem_cons.1 hm with rfl | hm
            · exact hi
            · exact hseen m hm

/-- The ancestors are the clauses that can be reached, each once, in ascending order. -/
theorem ancestors_exact (ho : a.Ordered) (hroot : root < a.size) :
    ∃ ms, a.ancestors (.int root) = .ok ms ∧ (ms.map Met.id).Pairwise (· < ·) ∧
      (∀ i, i ∈ ms.map Met.id ↔ a.Reaches root i) ∧ (ms.map Met.id).getLast? = some root := by
  obtain ⟨ms, hms, hanc, hlast⟩ := ancestors_eq_ok ho hroot
  have hasc : (ms.map Met.id).Pairwise (· < ·) :=
    (pairwise_ancestors hms).imp₂ (fun _ _ => lt_of_le_of_ne) hanc.nodup
  refine ⟨ms, hms, hasc, fun i => ⟨fun hi => ?_, fun hi => ?_⟩, hlast⟩
  · obtain ⟨m, hm, rfl⟩ := List.mem_map.1 hi
    rw [ancestors] at hms
    cases hc : a.collect a.collectBound [.int root] [] with
    | error e => rw [hc] at hms; cases hms
    | ok ns =>
      rw [hc] at hms
      obtain rfl := Except.ok.inj hms
      have hstart : ∀ j ∈ [root], a.Reaches root j := by
        intro j hj
        rw [List.mem_singleton.1 hj]
        exact .self
      exact collect_reaches ho hstart (by simp) hc m (List.mem_mergeSort.1 hm)
  · induction hi with
    | self => exact hanc.root_mem
    | parent _ hd hp ih => exact hanc.closed _ ih _ hd _ hp

theorem Reaches.lt_size (ho : a.Ordered) (hroot : root < a.size) (h : a.Reaches root i) :
    i < a.size := by
  induction h with
  | self => exact hroot
  | parent _ hd hp ih =>
    obtain ⟨ps, hps, hlt⟩ := ho _ _ hd
    rw [hps] at hp
    obtain ⟨q, hq, he⟩ := List.mem_map.1 hp
    obtain rfl : q = _ := Int.ofNat.inj (Item.int.inj he)
    exact (hlt q hq).trans ih

end Arena

/-! ### Traces -/

namespace Proof

open Arena

variable {a : Arena} {t : Trace} {s : Step} {ms : List Met} {m : Met} {d : Derived}
  {ids ps : List Nat} {k root : Nat}

/-- The trace has the clauses that `root` was derived from, and `root` at the end, in the order of
their numbers. Steps name their parents by positions further up, and what is not the conclusion is
used further down. -/
structure Trace.Presents (t : Trace) (a : Arena) (root : Nat) : Prop where
  mem_iff : ∀ i, i ∈ t.steps.map Step.id ↔ a.Reaches root i
  ascending : (t.steps.map Step.id).Pairwise (· < ·)
  last : t.steps.getLast?.map Step.id = some root
  shown : ∀ (k : Nat) (s : Step), t.steps[k]? = some s →
    s.index = k ∧ a.get? s.id = some s.derived
  parents : ∀ s ∈ t.steps, (∀ p ∈ s.parents, p < s.index) ∧
    s.parents.map (fun p => t.steps[p]?.map fun u => Item.int u.id) = s.parentIds.map some
  used : ∀ k, k + 1 < t.steps.length → ∃ u ∈ t.steps, k < u.index ∧ k ∈ u.parents

section
variable (hms : ∀ m ∈ ms, m.id < a.size)
include hms

theorem getElem?_stepsOf_eq_some (h : (stepsOf a ms)[k]? = some s) :
    ∃ m d, ms[k]? = some m ∧ a.get? m.id = some d ∧ s = stepOf (ms.map Met.id) m k d := by
  rw [stepsOf, getElem?_filterMap_of_isSome (isSome_step hms), List.getElem?_zipIdx] at h
  obtain ⟨x, hx, h⟩ := Option.bind_eq_some_iff.1 h
  obtain ⟨m, hm, rfl⟩ := Option.map_eq_some_iff.1 hx
  obtain ⟨d, hd, rfl⟩ := Option.map_eq_some_iff.1 h
  exact ⟨m, d, hm, hd, by simp⟩

theorem map_id_stepsOf : (stepsOf a ms).map Step.id = ms.map Met.id := by
  refine List.ext_getElem? fun k => ?_
  rw [List.getElem?_map, List.getElem?_map]
  cases hk : ms[k]? with
  | none =>
    rw [stepsOf, getElem?_filterMap_of_isSome (isSome_step hms), List.getElem?_zipIdx, hk]
    rfl
  | some m =>
    have hlt : m.id < a.size := hms m (List.mem_of_getElem? hk)
    rw [getElem?_stepsOf hms hk (Array.getElem?_eq_getElem hlt)]
    rfl

end

/-- The positions named as parents are those of the parents' numbers. -/
theorem map_parents_stepOf (hps : parentsOf d = ps.map fun (p : Nat) => .int p)
    (hmem : ∀ p ∈ ps, p ∈ ids) (m : Met) (k : Nat) :
    (stepOf ids m k d).parents.map (fun j => ids[j]?) = ps.map some := by
  rw [stepOf, hps]
  clear hps
  induction ps with
  | nil => rfl
  | cons p ps ih =>
    obtain ⟨j, hj⟩ :=
      Option.isSome_iff_exists.1 (List.isSome_idxOf?.2 (hmem p (List.mem_cons_self ..)))
    obtain ⟨hlt, hget, -⟩ := List.idxOf?_eq_some_iff.1 hj
    have htail := ih fun q hq => hmem q (List.mem_cons_of_mem _ hq)
    simp only [List.map_cons, List.filterMap_cons, whole?_int, Option.bind_some,
      Int.toNat_natCast, hj, List.getElem?_eq_getElem hlt, hget] at htail ⊢
    rw [htail]

theorem position_lt_iff {i j p : Nat} (hasc : ids.Pairwise (· < ·)) (hj : ids[j]? = some p)
    (hk : ids[k]? = some i) : j < k ↔ p < i := by
  obtain ⟨hj', rfl⟩ := List.getElem?_eq_some_iff.1 hj
  obtain ⟨hk', rfl⟩ := List.getElem?_eq_some_iff.1 hk
  have hlt := List.pairwise_iff_getElem.1 hasc
  refine ⟨hlt j k hj' hk', fun h => ?_⟩
  by_contra hge
  rcases Nat.lt_or_eq_of_le (Nat.le_of_not_lt hge) with hkj | rfl
  · have := hlt k j hk' hj' hkj
    omega
  · omega

section
variable (ho : a.Ordered) (hsize : ∀ m ∈ ms, m.id < a.size)
  (hasc : (ms.map Met.id).Pairwise (· < ·))
  (hmem : ∀ i, i ∈ ms.map Met.id ↔ a.Reaches root i)
include ho hsize hasc hmem

/-- The parents of a step with their numbers, which the trace has further up. -/
theorem exists_parents (hs : (stepsOf a ms)[k]? = some s) :
    ∃ ps : List Nat, s.parentIds = (ps.map fun (p : Nat) => .int p) ∧
      s.parents.map (fun j => ((stepsOf a ms).map Step.id)[j]?) = ps.map some ∧
      ∀ j ∈ s.parents, j < k := by
  obtain ⟨m, d, hm, hd, rfl⟩ := getElem?_stepsOf_eq_some hsize hs
  obtain ⟨ps, hps, hbelow⟩ := ho m.id d hd
  have hk : (ms.map Met.id)[k]? = some m.id := by rw [List.getElem?_map, hm]; rfl
  have hin : ∀ p ∈ ps, p ∈ ms.map Met.id := by
    intro p hp
    have hreach : a.Reaches root m.id := (hmem _).1 (List.mem_of_getElem? hk)
    exact (hmem p).2 (hreach.parent hd (hps ▸ List.mem_map_of_mem hp))
  have hpos := map_parents_stepOf hps hin m k
  refine ⟨ps, hps, by rw [map_id_stepsOf hsize]; exact hpos, fun j hj => ?_⟩
  have hj' : (ms.map Met.id)[j]? ∈ ps.map some := hpos ▸ List.mem_map_of_mem hj
  obtain ⟨p, hp, he⟩ := List.mem_map.1 hj'
  exact (position_lt_iff hasc he.symm hk).2 (hbelow p hp)

/-- A clause that is not the root is there because another one names it. -/
theorem exists_user {i : Nat} (hk : (ms.map Met.id)[k]? = some i) (hi : i ≠ root) :
    ∃ u ∈ stepsOf a ms, k < u.index ∧ k ∈ u.parents := by
  have hreach : a.Reaches root i := (hmem i).1 (List.mem_of_getElem? hk)
  cases hreach with
  | self => exact absurd rfl hi
  | @parent c _ e hc he hp =>
    obtain ⟨j, hj⟩ := List.mem_iff_getElem?.1 ((hmem c).2 hc)
    rw [List.getElem?_map] at hj
    obtain ⟨n, hn, rfl⟩ := Option.map_eq_some_iff.1 hj
    have hu := getElem?_stepsOf hsize hn he
    obtain ⟨ps, hps, hpos, hbelow⟩ := exists_parents ho hsize hasc hmem hu
    have hips : some i ∈ ps.map some := by
      have : Item.int i ∈ ps.map fun (p : Nat) => .int p := hps ▸ hp
      obtain ⟨q, hq, heq⟩ := List.mem_map.1 this
      rw [← Int.ofNat.inj (Item.int.inj heq)]
      exact List.mem_map_of_mem hq
    rw [← hpos, map_id_stepsOf hsize] at hips
    obtain ⟨l, hl, hli⟩ := List.mem_map.1 hips
    -- numbers come once, so the position that is named is the one at hand
    have hlk := position_lt_iff hasc hli hk
    have hkl := position_lt_iff hasc hk hli
    obtain rfl : l = k := by omega
    exact ⟨_, List.mem_of_getElem? hu, hbelow l hl, hl⟩

end

/-- In an arena in which parents come first, every clause has a trace, and the trace presents all
that the clause was derived from. -/
theorem exists_presents (ho : a.Ordered) (hroot : root < a.size) :
    ∃ t, Trace.ofArena a (.int root) = .ok t ∧ t.Presents a root := by
  obtain ⟨ms, hms, hasc, hmem, hlast⟩ := ancestors_exact ho hroot
  have hsize : ∀ m ∈ ms, m.id < a.size := fun m hm =>
    ((hmem _).1 (List.mem_map_of_mem hm)).lt_size ho hroot
  have hids := map_id_stepsOf hsize
  have hok : Trace.ofArena a (.int root) = .ok ⟨stepsOf a ms⟩ := by
    rw [ofArena_eq, hms]
    rfl
  refine ⟨_, hok, ⟨fun i => hids ▸ hmem i, hids ▸ hasc, ?_, fun k s hs => ?_, fun s hs => ?_,
    fun k hk => ?_⟩⟩
  · rw [← List.getLast?_map, hids, hlast]
  · obtain ⟨m, d, -, hd, rfl⟩ := getElem?_stepsOf_eq_some hsize hs
    exact ⟨rfl, hd⟩
  · obtain ⟨k, hk⟩ := List.mem_iff_getElem?.1 hs
    obtain ⟨ps, hps, hpos, hbelow⟩ := exists_parents ho hsize hasc hmem hk
    obtain ⟨m, d, -, -, rfl⟩ := getElem?_stepsOf_eq_some hsize hk
    refine ⟨hbelow, ?_⟩
    have hnamed := congrArg (List.map (Option.map fun (i : Nat) => Item.int i)) hpos
    simpa [hps, Function.comp_def] using hnamed
  · have hlength : k + 1 < (ms.map Met.id).length := by rw [← hids, List.length_map]; exact hk
    have hget := List.getElem?_eq_getElem (Nat.lt_of_succ_lt hlength)
    refine exists_user ho hsize hasc hmem hget fun he => ?_
    rw [List.getLast?_eq_getElem?] at hlast
    have := (position_lt_iff hasc hget hlast).1 (by omega)
    omega

end Proof

/-! ### Searches -/

/-- Arenas and traces are well-founded. In every state of every search whose input has no parents,
the clauses that wait, that are usable and that refute the input stand in the arena at their
numbers, and parents have lower numbers than the clauses inferred from them. In every arena of this
kind, every clause has a trace, which presents the clauses it was derived from. -/
theorem parents_come_first :
    (∀ (strategy : Strategy) (seeds : List Derived) (s : Search), Search.Reached strategy seeds s →
      (∀ d ∈ seeds, Arena.parentsOf d = []) →
        (∀ k f, s.agenda.usable.arena.filed? k = some f → f.id = k) ∧
        (∀ f, f ∈ s.agenda.waiting ∨ f ∈ s.agenda.usable.clauses ∨
          s.outcome.proofClause = .ok f → s.Files f) ∧
        s.agenda.usable.clauses.map Filed.id = s.agenda.usable.active ∧
        s.agenda.usable.arena.Ordered) ∧
    ∀ (a : Arena) (root : Nat), a.Ordered → root < a.size →
      ∃ t, Proof.Trace.ofArena a (.int root) = .ok t ∧ t.Presents a root := by
  refine ⟨fun strategy seeds s h hseeds => ⟨fun k f hf => ?_, fun f hf => ?_, ?_, ?_⟩,
    fun a root ho hroot => Proof.exists_presents ho hroot⟩
  · exact (Arena.files_of_filed? hf).2
  · rcases hf with hf | hf | hf
    · exact h.descends.waiting f hf
    · exact Store.files_of_mem_clauses hf
    · exact (Search.proofClause_eq_ok hf).2.1
  · exact h.consistent.orderly.indexed.map_id_clauses
  · exact h.descends.ordered hseeds

/-- A clause of an arena with the numbers of its parents. -/
def Derived.ofParents (ls : List Literal) (parents : List Nat := []) : Derived :=
  ⟨.ofList ls, some
    { rule := .str (if parents = [] then assumptionRule else resolutionRule)
      parents := parents.map fun (p : Nat) => .int p }⟩

/-- It rains, and then the street is wet and is not. That it is cold has nothing to do with it. -/
def wetStreet : Arena :=
  ⟨#[.ofParents [.pos ⟨"rain", []⟩], .ofParents [.neg ⟨"rain", []⟩, .pos ⟨"wet", []⟩],
    .ofParents [.pos ⟨"cold", []⟩], .ofParents [.neg ⟨"rain", []⟩, .neg ⟨"wet", []⟩],
    .ofParents [.pos ⟨"wet", []⟩] [1, 0], .ofParents [.neg ⟨"rain", []⟩] [3, 4],
    .ofParents [] [5, 0]]⟩

theorem ordered_wetStreet : wetStreet.Ordered := by
  intro i d hd
  obtain ⟨hi, rfl⟩ := Array.getElem?_eq_some_iff.1 hd
  match i, hi with
  | 0, _ | 1, _ | 2, _ | 3, _ => exact ⟨[], rfl, by simp⟩
  | 4, _ => exact ⟨[1, 0], rfl, by simp⟩
  | 5, _ => exact ⟨[3, 4], rfl, by simp⟩
  | 6, _ => exact ⟨[5, 0], rfl, by simp⟩

/-- Nothing that the contradiction was derived from has clause 2 for a parent. -/
theorem reaches_wetStreet {i : Nat} : wetStreet.Reaches 6 i ↔ i < 7 ∧ i ≠ 2 := by
  constructor
  · intro h
    induction h with
    | self => decide
    | @parent i p d _ hd hp ih =>
      have hcases : i = 0 ∨ i = 1 ∨ i = 3 ∨ i = 4 ∨ i = 5 ∨ i = 6 := by omega
      obtain ⟨hi, rfl⟩ := Array.getElem?_eq_some_iff.1 hd
      rcases hcases with rfl | rfl | rfl | rfl | rfl | rfl <;>
        simp [wetStreet, Derived.ofParents, Arena.parentsOf] at hp <;> omega
  · rintro ⟨hi, hne⟩
    have h5 : wetStreet.Reaches 6 5 := Arena.Reaches.self.parent rfl (List.mem_cons_self ..)
    have h4 : wetStreet.Reaches 6 4 :=
      h5.parent rfl (List.mem_cons_of_mem _ (List.mem_cons_self ..))
    have hcases : i = 0 ∨ i = 1 ∨ i = 3 ∨ i = 4 ∨ i = 5 ∨ i = 6 := by omega
    rcases hcases with rfl | rfl | rfl | rfl | rfl | rfl
    · exact h4.parent rfl (List.mem_cons_of_mem _ (List.mem_cons_self ..))
    · exact h4.parent rfl (List.mem_cons_self ..)
    · exact h5.parent rfl (List.mem_cons_self ..)
    · exact h4
    · exact h5
    · exact .self

-- the run files a clause only to shorten it; the trace passes over clause 2
theorem parents_come_first_wetStreet :
    (∃ s, Search.Reached Search.allRules Search.contradiction s ∧ s.status = .refuted ∧
      s.agenda.usable.arena.size = 5 ∧ s.agenda.usable.arena.Ordered) ∧
    ∃ t, Proof.Trace.ofArena wetStreet (.int 6) = .ok t ∧ t.Presents wetStreet 6 ∧
      ∀ i, i ∈ t.steps.map Proof.Step.id ↔ i < 7 ∧ i ≠ 2 := by
  constructor
  · let s₀ : Search := { strategy := Search.allRules }
    let s : Search := (s₀.seedAll Search.contradiction).step.step.step
    have hseed : Search.Reached Search.allRules ([] ++ Search.contradiction)
        (s₀.seedAll Search.contradiction) :=
      (Search.Reached.create {} (some ⟨.smallest, 0, 0⟩) {}).seed rfl
    have hs : Search.Reached Search.allRules Search.contradiction s := hseed.step.step.step
    have hseeds : ∀ d ∈ Search.contradiction, Arena.parentsOf d = [] := by
      simp [Search.contradiction, Arena.parentsOf]
    obtain ⟨-, -, -, ho⟩ := parents_come_first.1 Search.allRules Search.contradiction s hs hseeds
    exact ⟨s, hs, by decide +kernel, by decide +kernel, ho⟩
  · obtain ⟨t, ht, hp⟩ := parents_come_first.2 wetStreet 6 ordered_wetStreet (by decide)
    exact ⟨t, ht, hp, fun i => (hp.mem_iff i).trans reaches_wetStreet⟩

end Elenchus

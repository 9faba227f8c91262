import Elenchus.Proofs.Replay
import Elenchus.Proofs.SearchHistory
import Mathlib.Algebra.BigOperators.Group.Finset.Basic
import Mathlib.Data.List.Sort

/-! Traces of filed clauses have every clause that an inference in them starts from, and replay. -/

namespace Elenchus

namespace Arena

variable {a : Arena} {f : Filed} {root : Nat} {pending ids : List Nat} {seen : List Met}

/-! ### Ancestors -/

/-- Parents are named by numbers below that of the clause. -/
def Ordered (a : Arena) : Prop :=
  ∀ i d, a.get? i = some d →
    ∃ ps : List Nat, parentsOf d = (ps.map fun (p : Nat) => .int p) ∧ ∀ p ∈ ps, p < i

theorem fetch_int (h : a.Files f) : a.fetch (.int f.id) = .ok f := by
  have hlt := h.lt_size
  have hle : (Number.int 0).le (.int f.id) = true := by
    have : compare (0 : Int) f.id = .lt ∨ compare (0 : Int) f.id = .eq := by
      rw [compare_lt_iff_lt, compare_eq_iff_eq]
      omega
    simpa [Number.le, Number.lt, Number.eq, Number.compare?, Number.scaled?] using this
  have hsize : (Number.int f.id).lt (.int a.size) = true := by
    simpa [Number.lt, Number.compare?, Number.scaled?, compare_lt_iff_lt] using hlt
  simp [fetch, Item.number?, Item.int?, hle, hsize, filed?_of_files h]

theorem isMet_int {i : Nat} : isMet seen (.int i) = true ↔ i ∈ seen.map Met.id := by
  simp [isMet]

/-- Each collected number is there once, none is above the root, and every parent of a collected
clause is collected or pending. -/
structure Ancestral (a : Arena) (root : Nat) (pending ids : List Nat) : Prop where
  nodup : ids.Nodup
  le_root : ∀ i ∈ pending ++ ids, i ≤ root
  root_mem : root ∈ pending ++ ids
  closed : ∀ i ∈ ids, ∀ d, a.get? i = some d → ∀ p : Nat, .int p ∈ parentsOf d → p ∈ pending ++ ids

theorem Ancestral.skip {i : Nat} (h : a.Ancestral root (i :: pending) ids) (hi : i ∈ ids) :
    a.Ancestral root pending ids := by
  have hmem : ∀ j ∈ i :: pending ++ ids, j ∈ pending ++ ids := by simp [hi]
  exact ⟨h.nodup, fun j hj => h.le_root j (List.mem_cons_of_mem _ hj), hmem _ h.root_mem,
    fun j hj d hd p hp => hmem p (h.closed j hj d hd p hp)⟩

theorem Ancestral.visit {i : Nat} {d : Derived} {ps : List Nat}
    (h : a.Ancestral root (i :: pending) ids) (hi : i ∉ ids) (hd : a.get? i = some d)
    (hps : parentsOf d = ps.map fun (p : Nat) => .int p) (hlt : ∀ p ∈ ps, p < i) :
    a.Ancestral root (ps.reverse ++ pending) (i :: ids) := by
  have hmem : ∀ j ∈ i :: pending ++ ids, j ∈ ps.reverse ++ pending ++ i :: ids := by grind
  have hroot : i ≤ root := h.le_root i (by simp)
  refine ⟨List.nodup_cons.2 ⟨hi, h.nodup⟩, fun j hj => ?_, hmem _ h.root_mem,
    fun j hj e he p hp => ?_⟩
  · simp only [List.mem_append, List.mem_reverse, List.mem_cons] at hj
    rcases hj with (hj | hj) | rfl | hj
    · exact (hlt j hj).le.trans hroot
    · exact h.le_root j (by simp [hj])
    · exact hroot
    · exact h.le_root j (by simp [hj])
  · rcases List.mem_cons.1 hj with rfl | hj
    · obtain rfl : d = e := Option.some.inj (hd.symm.trans he)
      have : p ∈ ps := by simpa [hps] using hp
      simp [this]
    · exact hmem p (h.closed j hj e he p hp)

theorem Ancestral.perm {ids' : List Nat} (h : a.Ancestral root pending ids) (hp : ids'.Perm ids) :
    a.Ancestral root pending ids' := by
  have hmem : ∀ i, i ∈ pending ++ ids' ↔ i ∈ pending ++ ids := fun i => (hp.append_left _).mem_iff
  exact ⟨hp.nodup_iff.2 h.nodup, fun i hi => h.le_root i ((hmem i).1 hi),
    (hmem root).2 h.root_mem,
    fun i hi d hd p hp' => (hmem p).2 (h.closed i (hp.mem_iff.1 hi) d hd p hp')⟩

/-! ### The number of steps -/

def parentCount (a : Arena) (i : Nat) : Nat := ((a.get? i).map fun d => (parentsOf d).length).getD 0

/-- Parents that clauses not collected yet may still put on the stack. -/
def remaining (a : Arena) (ids : List Nat) : Nat :=
  ∑ i ∈ (Finset.range a.size).filter (· ∉ ids), a.parentCount i

theorem remaining_cons {i : Nat} (hi : i ∉ ids) (hlt : i < a.size) :
    a.parentCount i + a.remaining (i :: ids) = a.remaining ids := by
  have hmem : i ∈ (Finset.range a.size).filter (· ∉ ids) := by simp [hi, hlt]
  have herase : (Finset.range a.size).filter (· ∉ i :: ids) =
      ((Finset.range a.size).filter (· ∉ ids)).erase i := by
    ext j
    simp only [Finset.mem_filter, Finset.mem_erase, List.mem_cons]
    tauto
  rw [remaining, herase, remaining, Finset.add_sum_erase _ _ hmem]

theorem collectBound_eq (a : Arena) : a.collectBound = 1 + a.remaining [] := by
  have key : ∀ (ds : List Derived) (n : Nat),
      ds.foldl (fun n d => n + (parentsOf d).length) n =
        n + ∑ i ∈ Finset.range ds.length, (ds[i]?.map fun d => (parentsOf d).length).getD 0 := by
    intro ds
    induction ds with
    | nil => simp
    | cons d ds ih =>
      intro n
      rw [List.foldl_cons, ih, List.length_cons, Finset.sum_range_succ']
      simp only [List.getElem?_cons_succ, List.getElem?_cons_zero, Option.map_some,
        Option.getD_some]
      omega
  have := key a.entries.toList 1
  simpa [collectBound, remaining, parentCount, get?, size] using this

/-- With enough steps the stack is emptied, and the numbers that are met have all parents. -/
theorem collect_eq_ok (ho : a.Ordered) (hroot : root < a.size) {steps : Nat}
    (h : a.Ancestral root pending (seen.map Met.id))
    (hsteps : pending.length + a.remaining (seen.map Met.id) ≤ steps) :
    ∃ ms, a.collect steps (pending.map fun (i : Nat) => .int i) seen = .ok ms ∧
      a.Ancestral root [] (ms.map Met.id) := by
  induction steps generalizing pending seen with
  | zero =>
    obtain rfl : pending = [] := List.length_eq_zero_iff.1 (by omega)
    exact ⟨seen, by simp [collect], h⟩
  | succ steps ih =>
    cases pending with
    | nil => exact ⟨seen, by simp [collect], h⟩
    | cons i pending =>
      rw [List.map_cons, collect]
      by_cases hi : i ∈ seen.map Met.id
      · rw [if_pos (isMet_int.2 hi)]
        exact ih (h.skip hi) (by simp only [List.length_cons] at hsteps; omega)
      · have hlt : i < a.size := (h.le_root i (by simp)).trans_lt hroot
        obtain ⟨d, hd⟩ : ∃ d, a.get? i = some d := ⟨_, Array.getElem?_eq_getElem hlt⟩
        obtain ⟨ps, hps, hbelow⟩ := ho i d hd
        have hstack : (parentsOf d).reverse ++ pending.map (fun (i : Nat) => .int i) =
            (ps.reverse ++ pending).map fun (i : Nat) => .int i := by simp [hps]
        have hcount : a.parentCount i = ps.length := by simp [parentCount, hd, hps]
        have hrest := remaining_cons hi hlt
        rw [if_neg (mt isMet_int.1 hi), fetch_int (f := ⟨i, d⟩) hd]
        dsimp only
        rw [hstack]
        refine ih (h.visit hi hd hps hbelow) ?_
        simp only [List.length_cons, List.length_append, List.length_reverse, List.map_cons]
          at hsteps ⊢
        omega

theorem getLast?_of_pairwise_le {l : List Nat} {n : Nat} (h : l.Pairwise (· ≤ ·)) (hn : n ∈ l)
    (hle : ∀ i ∈ l, i ≤ n) : l.getLast? = some n := by
  rcases List.eq_nil_or_concat' l with rfl | ⟨init, x, rfl⟩
  · simp at hn
  · have hnx : n ≤ x := by
      rcases List.mem_append.1 hn with hn | hn
      · exact (List.pairwise_append.1 h).2.2 n hn x (List.mem_singleton_self x)
      · exact (List.mem_singleton.1 hn).le
    have hxn : x ≤ n := hle x (by simp)
    simp [le_antisymm hxn hnx]

theorem pairwise_ancestors {id : Item} {ms : List Met} (h : a.ancestors id = .ok ms) :
    (ms.map Met.id).Pairwise (· ≤ ·) := by
  rw [ancestors] at h
  cases hc : a.collect a.collectBound [id] [] with
  | error e => rw [hc] at h; cases h
  | ok ns =>
    rw [hc] at h
    obtain rfl := Except.ok.inj h
    refine List.pairwise_map.2 ((List.pairwise_mergeSort ?_ ?_ ns).imp of_decide_eq_true)
    · exact fun x y z hxy hyz =>
        decide_eq_true ((of_decide_eq_true hxy).trans (of_decide_eq_true hyz))
    · intro x y
      simpa using le_total x.id y.id

/-- The ancestors of a clause, with the clause itself at the end. -/
theorem ancestors_eq_ok (ho : a.Ordered) (hroot : root < a.size) :
    ∃ ms, a.ancestors (.int root) = .ok ms ∧ a.Ancestral root [] (ms.map Met.id) ∧
      (ms.map Met.id).getLast? = some root := by
  have hstart : a.Ancestral root [root] (([] : List Met).map Met.id) :=
    ⟨by simp, by simp, by simp, by simp⟩
  obtain ⟨ms, hms, h⟩ := collect_eq_ok ho hroot hstart (collectBound_eq a).ge
  have hok : a.ancestors (.int root) =
      .ok (ms.mergeSort fun m n => decide (m.id ≤ n.id)) := congrArg (Except.map _) hms
  have hsort := h.perm ((List.mergeSort_perm ms fun m n => decide (m.id ≤ n.id)).map Met.id)
  exact ⟨_, hok, hsort,
    getLast?_of_pairwise_le (pairwise_ancestors hok) hsort.root_mem hsort.le_root⟩

end Arena

/-! ### The steps of a trace -/

namespace Proof

open Arena

variable {a : Arena} {t : Trace} {f : Filed} {ms : List Met} {m : Met} {d : Derived}
  {ps : List Filed} {k root : Nat}

/-- The step for a clause in a trace of the clauses with the given numbers. -/
def stepOf (ids : List Nat) (m : Met) (index : Nat) (d : Derived) : Step where
  index
  id := m.id
  label := m.label
  derived := d
  parents := (parentsOf d).filterMap fun p => p.whole?.bind fun n => ids.idxOf? n.toNat

/-- The steps for some clauses. -/
def stepsOf (a : Arena) (ms : List Met) : List Step :=
  ms.zipIdx.filterMap fun (m, index) => (a.get? m.id).map (stepOf (ms.map Met.id) m index)

theorem ofArena_eq (a : Arena) (id : Item) :
    Trace.ofArena a id = (a.ancestors id).map fun ms => ⟨stepsOf a ms⟩ := rfl

section
variable (hms : ∀ m ∈ ms, m.id < a.size)
include hms

theorem isSome_step : ∀ x ∈ ms.zipIdx,
    ((a.get? x.1.id).map (stepOf (ms.map Met.id) x.1 x.2)).isSome := by
  intro x hx
  have hlt : x.1.id < a.entries.size := hms x.1 (List.fst_mem_of_mem_zipIdx hx)
  simp [get?, Array.getElem?_eq_getElem hlt]

/-- No clause is left out, so each step stands where its clause does. -/
theorem getElem?_stepsOf (hk : ms[k]? = some m) (hd : a.get? m.id = some d) :
    (stepsOf a ms)[k]? = some (stepOf (ms.map Met.id) m k d) := by
  rw [stepsOf, getElem?_filterMap_of_isSome (isSome_step hms), List.getElem?_zipIdx, hk]
  simp [hd]

theorem getLast?_stepsOf (hm : ms.getLast? = some m) (hd : a.get? m.id = some d) :
    (stepsOf a ms).getLast? = some (stepOf (ms.map Met.id) m (ms.length - 1) d) := by
  have hlength : (stepsOf a ms).length = ms.length := by
    rw [stepsOf, List.filterMap_length_eq_length.2 (isSome_step hms), List.length_zipIdx]
  rw [List.getLast?_eq_getElem?] at hm ⊢
  rw [hlength]
  exact getElem?_stepsOf hms hm hd

/-- The positions of parents lead to their clauses. -/
theorem mapM_parents (hps : ∀ p ∈ ps, a.Files p ∧ p.id ∈ ms.map Met.id)
    (hd : parentsOf d = ps.map fun p => .int p.id) (m : Met) (k : Nat) :
    (stepOf (ms.map Met.id) m k d).parents.mapM (fun p => (stepsOf a ms)[p]?.map Step.clause) =
      some (ps.map Filed.clause) := by
  rw [stepOf, hd]
  clear hd
  induction ps with
  | nil => rfl
  | cons p ps ih =>
    obtain ⟨hp, hid⟩ := hps p (List.mem_cons_self ..)
    obtain ⟨j, hj⟩ := Option.isSome_iff_exists.1 (List.isSome_idxOf?.2 hid)
    obtain ⟨hlt, hget, -⟩ := List.idxOf?_eq_some_iff.1 hj
    obtain ⟨n, hn, hnid⟩ : ∃ n, ms[j]? = some n ∧ n.id = p.id := by
      have : (ms.map Met.id)[j]? = some p.id := by rw [List.getElem?_eq_getElem hlt, hget]
      simpa using this
    have hpd : a.get? n.id = some p.derived := hnid ▸ (show a.get? p.id = _ from hp)
    have hstep := getElem?_stepsOf hms hn hpd
    have htail := ih fun q hq => hps q (List.mem_cons_of_mem _ hq)
    simp only [List.map_cons, List.filterMap_cons, whole?_int, Option.bind_some, Int.toNat_natCast,
      hj, List.mapM_cons, hstep, Option.map_some, htail]
    rfl

end

/-- The trace shows filed clauses only, and for each of them all parents. -/
structure Trace.Shows (t : Trace) (a : Arena) : Prop where
  filed : ∀ s ∈ t.steps, ∃ f, a.Files f ∧ f.derived = s.derived
  parents : ∀ s ∈ t.steps, ∀ ps : List Filed, (∀ p ∈ ps, a.Files p) →
    parentsOf s.derived = (ps.map fun p => .int p.id) →
      s.parents.mapM (fun p => t.steps[p]?.map Step.clause) = some (ps.map Filed.clause)

theorem exists_trace (ho : a.Ordered) (hf : a.Files f) :
    ∃ t, Trace.ofArena a (.int f.id) = .ok t ∧ t.Shows a ∧ t.conclusion = some f.clause := by
  obtain ⟨ms, hms, hanc, hlast⟩ := ancestors_eq_ok ho hf.lt_size
  have hsize : ∀ m ∈ ms, m.id < a.size := fun m hm =>
    (hanc.le_root _ (List.mem_map_of_mem hm)).trans_lt hf.lt_size
  have hok : Trace.ofArena a (.int f.id) = .ok ⟨stepsOf a ms⟩ := by
    rw [ofArena_eq, hms]
    rfl
  refine ⟨_, hok, ⟨fun s hs => ?_, fun s hs ps hps he => ?_⟩, ?_⟩
  · obtain ⟨x, -, hx⟩ := List.mem_filterMap.1 hs
    obtain ⟨d, hd, rfl⟩ := Option.map_eq_some_iff.1 hx
    exact ⟨⟨x.1.id, d⟩, hd, rfl⟩
  · obtain ⟨x, hm, hx⟩ := List.mem_filterMap.1 hs
    obtain ⟨d, hd, rfl⟩ := Option.map_eq_some_iff.1 hx
    have hxm := List.mem_map_of_mem (f := Met.id) (List.fst_mem_of_mem_zipIdx hm)
    refine mapM_parents hsize (fun p hp => ⟨hps p hp, ?_⟩) he x.1 x.2
    exact hanc.closed _ hxm d hd p.id (he ▸ List.mem_map_of_mem hp)
  · rw [List.getLast?_map] at hlast
    obtain ⟨m, hm, hid⟩ := Option.map_eq_some_iff.1 hlast
    have hd : a.get? m.id = some f.derived := hid ▸ (show a.get? f.id = _ from hf)
    rw [Trace.conclusion, getLast?_stepsOf hsize hm hd]
    rfl

/-! ### Replay -/

theorem replayFrom_eq_ok {steps rest : List Step} (h : ∀ s ∈ rest, replayStep steps s = .ok ()) :
    replayFrom steps rest = .ok () := by
  induction rest with
  | nil => rfl
  | cons s rest ih =>
    rw [replayFrom, h s (List.mem_cons_self ..)]
    exact ih fun u hu => h u (List.mem_cons_of_mem _ hu)

/-- An inference whose parents are shown replays. -/
theorem Trace.Shows.replayStep_eq_ok {s : Step} (h : t.Shows a) (hs : s ∈ t.steps)
    (hps : ∀ p ∈ ps, a.Files p) (hi : Inference.Inferred ps s.derived) :
    s.isPremise = false ∧ replayStep t.steps s = .ok () := by
  obtain ⟨hne, e, he, hpar, hredo⟩ := redo_inferred hi
  have hmap := h.parents s hs ps hps (by rw [parentsOf, he]; exact hpar)
  have hprem : s.isPremise = false := by
    rw [Step.isPremise, List.isEmpty_eq_false_iff, ne_eq, eq_nil_iff_of_mapM hmap]
    simpa using hne
  refine ⟨hprem, ?_⟩
  simp only [replayStep, hprem, he, hmap, hredo, ok_bind, Step.clause, Clause.alike_self]
  rfl

theorem Trace.Shows.isPremise {s : Step} (h : t.Shows a) (hs : s ∈ t.steps)
    (hd : parentsOf s.derived = []) : s.isPremise = true := by
  have hmap := h.parents s hs [] (by simp) hd
  exact List.isEmpty_iff.2 ((eq_nil_iff_of_mapM hmap).2 rfl)

end Proof

section
variable {a : Arena} {premises : List Derived} {r : Renamer} (h : a.History premises r)
  (hp : ∀ d ∈ premises, Arena.parentsOf d = [])
include h hp

theorem Arena.History.ordered : a.Ordered := by
  intro i d hd
  rcases h.origin ⟨i, d⟩ hd with hm | ⟨ps, hps, hi⟩
  · exact ⟨[], hp d hm, by simp⟩
  · obtain ⟨-, e, he, hpar, -⟩ := Proof.redo_inferred hi
    have he : d.derivation = some e := he
    refine ⟨ps.map Filed.id, by simp [parentsOf, he, hpar], fun p hp => ?_⟩
    obtain ⟨g, hg, rfl⟩ := List.mem_map.1 hp
    exact (hps g hg).2

/-- Every filed clause has a trace that replays and starts from premises only. -/
theorem Arena.History.exists_replay {f : Filed} (hf : a.Files f) :
    ∃ t, Proof.Trace.ofArena a (.int f.id) = .ok t ∧ t.replay = .ok () ∧
      (∀ s ∈ t.premises, s.derived ∈ premises) ∧ t.conclusion = some f.clause := by
  obtain ⟨t, ht, hshows, hc⟩ := Proof.exists_trace (h.ordered hp) hf
  have hstep : ∀ s ∈ t.steps, s.isPremise = true ∧ s.derived ∈ premises ∨
      s.isPremise = false ∧ Proof.replayStep t.steps s = .ok () := by
    intro s hs
    obtain ⟨g, hg, he⟩ := hshows.filed s hs
    rcases h.origin g hg with hm | ⟨ps, hps, hi⟩
    · rw [he] at hm
      exact Or.inl ⟨hshows.isPremise hs (hp _ hm), hm⟩
    · rw [he] at hi
      exact Or.inr (hshows.replayStep_eq_ok hs (fun p hp => (hps p hp).1) hi)
  refine ⟨t, ht, Proof.replayFrom_eq_ok fun s hs => ?_, fun s hs => ?_, hc⟩
  · rcases hstep s hs with ⟨hprem, -⟩ | ⟨-, hok⟩
    · rw [Proof.replayStep, if_pos hprem]
    · exact hok
  · obtain ⟨hs, hprem⟩ := List.mem_filter.1 hs
    rcases hstep s hs with ⟨-, hm⟩ | ⟨hno, -⟩
    · exact hm
    · simp [hno] at hprem

end

end Elenchus

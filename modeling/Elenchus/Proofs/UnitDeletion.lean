import Elenchus.Proofs.Lifting
import Elenchus.Proofs.Lineage
import Elenchus.Proofs.StoreHistories

/-! Unit deletion takes away exactly the literals that an active unit refutes. -/

namespace Elenchus

universe w

variable {s : Store} {u : Filed} {l m : Literal} {r : Renamer}

/-! ### Refuted literals -/

/-- The clause is a unit, and the complement of `l` is an instance of it. -/
def Filed.Refutes (u : Filed) (l : Literal) : Prop :=
  ∃ m, u.clause.literals = [m] ∧ ∃ σ : Subst, m.subst σ = l.negate

theorem Filed.refutes_iff : u.Refutes l ↔ u.clause.length = 1 ∧
    ∃ m ∈ u.clause.literals, (Subst.matchLiteral .empty m l.negate).isSome = true := by
  simp only [Subst.isSome_matchLiteral_iff, ← Subst.exists_subst_eq_iff]
  constructor
  · rintro ⟨m, hm, hσ⟩
    exact ⟨by simp [Clause.length, hm], m, by simp [hm], hσ⟩
  · rintro ⟨hlength, m, hm, hσ⟩
    obtain ⟨k, hk⟩ := List.length_eq_one_iff.1 hlength
    obtain rfl : m = k := by simpa [hk] using hm
    exact ⟨m, hk, hσ⟩

instance (u : Filed) (l : Literal) : Decidable (u.Refutes l) :=
  decidable_of_iff _ Filed.refutes_iff.symm

/-- An active unit clause has the complement of `l` as an instance. -/
def Store.Refutes (s : Store) (l : Literal) : Prop := ∃ u ∈ s.clauses, u.Refutes l

instance (s : Store) (l : Literal) : Decidable (s.Refutes l) :=
  inferInstanceAs (Decidable (∃ u ∈ s.clauses, u.Refutes l))

namespace Inference

variable {ps : List (Literal × Nat)}

/-! ### Deletions -/

/-- A fresh copy of a unit matches exactly if the unit refutes, whatever names it is given. -/
theorem isSome_match_copy_iff (hm : u.clause.literals = [m]) (r : Renamer) :
    (Subst.matchLiteral .empty (m.subst (u.clause.rename r).2.1) l.negate).isSome = true ↔
      u.Refutes l := by
  rw [Subst.isSome_matchLiteral_iff]
  constructor
  · rintro ⟨θ, hθ⟩
    have hinst : m.inst (fun x => ((u.clause.rename r).2.1.value x).inst θ) = l.negate := by
      rw [← hθ, Literal.subst_eq_inst, Literal.inst_inst]
    exact ⟨m, hm, Subst.exists_subst_eq_iff.2 ⟨_, hinst⟩⟩
  · rintro ⟨k, hk, hσ⟩
    obtain rfl : m = k := by simpa [hm] using hk
    obtain ⟨θ, hθ⟩ := Subst.exists_subst_eq_iff.1 hσ
    have hvars : ∀ x ∈ m.vars, x ∈ u.clause.vars := fun x hx =>
      Clause.mem_vars.2 ⟨m, by simp [hm], hx⟩
    obtain ⟨η, hη⟩ := (u.clause.rename_renamed r).exists_inst hvars θ
    exact ⟨η, hη.trans hθ⟩

/-- A unit that refutes is found if there is one. -/
theorem refutingUnit_spec (l : Literal) (i : Nat) (us : List Filed) (r : Renamer) :
    (∀ x, (refutingUnit l i us r).1 = some x → x.position = i ∧ x.unit ∈ us ∧ x.unit.Refutes l) ∧
      ((refutingUnit l i us r).1 = none → ∀ u ∈ us, ¬ u.Refutes l) := by
  induction us generalizing r with
  | nil => simp [refutingUnit]
  | cons u us ih =>
    -- what holds of the rest, if the first clause does not refute
    have hrest : ∀ r, ¬ u.Refutes l →
        (∀ x, (refutingUnit l i us r).1 = some x →
          x.position = i ∧ x.unit ∈ u :: us ∧ x.unit.Refutes l) ∧
        ((refutingUnit l i us r).1 = none → ∀ v ∈ u :: us, ¬ v.Refutes l) := by
      intro r hu
      obtain ⟨hsome, hnone⟩ := ih r
      refine ⟨fun x hx => ?_, fun hn v hv => ?_⟩
      · obtain ⟨hi, hm, hr⟩ := hsome x hx
        exact ⟨hi, List.mem_cons_of_mem _ hm, hr⟩
      · rcases List.mem_cons.1 hv with rfl | hv
        · exact hu
        · exact hnone hn v hv
    rw [refutingUnit]
    split
    · next m hm =>
      have hcopy := isSome_match_copy_iff (l := l) hm r
      dsimp only
      split
      · next σ hσ =>
        refine ⟨fun x hx => ?_, fun hn => by cases hn⟩
        obtain rfl := Option.some.inj hx
        exact ⟨rfl, List.mem_cons_self .., hcopy.1 (by rw [hσ]; rfl)⟩
      · next hσ => exact hrest _ fun hu => by simp [hσ] at hcopy; exact hcopy hu
    · next hm =>
      refine hrest r ?_
      rintro ⟨m, hu, -⟩
      exact hm m hu

/-- The units that are tried for a literal. -/
def unitsFor (s : Store) (l : Literal) : List Filed :=
  (s.candidates l).filterMap fun c => s.arena.filed? c.id

theorem mem_clauses_of_mem_unitsFor (h : s.Exact) (hu : u ∈ unitsFor s l) : u ∈ s.clauses := by
  obtain ⟨c, hc, hf⟩ := List.mem_filterMap.1 hu
  obtain ⟨f, hf', hid, -⟩ := h.mem_candidates_iff.1 hc
  obtain ⟨hfiles, hid'⟩ := Arena.files_of_filed? hf
  rwa [hfiles.unique (Store.files_of_mem_clauses hf') (hid'.trans hid.symm)]

/-- The index leaves no unit out that refutes. -/
theorem mem_unitsFor (h : s.Exact) (hu : u ∈ s.clauses) (hr : u.Refutes l) : u ∈ unitsFor s l := by
  obtain ⟨m, hm, hσ⟩ := hr
  obtain ⟨θ, hθ⟩ := Subst.exists_subst_eq_iff.1 hσ
  have hkey : m.key = l.oppositeKey := by
    have : m.inst θ = l.negate.inst .var := by rw [hθ, Literal.inst_var_eq_self]
    exact (key_eq_of_inst_eq this).trans rfl
  have hc : (⟨u.id, 0, m⟩ : Candidate) ∈ s.candidates l :=
    h.mem_candidates_iff.2 ⟨u, hu, rfl, by simp [hm], hkey⟩
  exact List.mem_filterMap.2 ⟨_, hc, Arena.filed?_of_files (Store.files_of_mem_clauses hu)⟩

theorem isSome_refutingUnit_iff (h : s.Exact) (l : Literal) (i : Nat) (r : Renamer) :
    (refutingUnit l i (unitsFor s l) r).1.isSome = true ↔ s.Refutes l := by
  obtain ⟨hsome, hnone⟩ := refutingUnit_spec l i (unitsFor s l) r
  constructor
  · intro hx
    obtain ⟨x, hx⟩ := Option.isSome_iff_exists.1 hx
    obtain ⟨-, hmem, hr⟩ := hsome x hx
    exact ⟨x.unit, mem_clauses_of_mem_unitsFor h hmem, hr⟩
  · rintro ⟨u, hu, hr⟩
    by_contra hx
    exact hnone (by simpa using hx) u (mem_unitsFor h hu hr) hr

theorem deletionsFrom_cons (s : Store) (l : Literal) (i : Nat) (ps : List (Literal × Nat))
    (r : Renamer) :
    (deletionsFrom s ((l, i) :: ps) r).1 = (refutingUnit l i (unitsFor s l) r).1.toList ++
      (deletionsFrom s ps (refutingUnit l i (unitsFor s l) r).2).1 :=
  rfl

/-- The literals that go are those that an active unit refutes. -/
theorem map_position_deletionsFrom (h : s.Exact) (ps : List (Literal × Nat)) (r : Renamer) :
    (deletionsFrom s ps r).1.map Deletion.position =
      (ps.filter fun p => s.Refutes p.1).map Prod.snd := by
  induction ps generalizing r with
  | nil => rfl
  | cons p ps ih =>
    obtain ⟨l, i⟩ := p
    have hiff := isSome_refutingUnit_iff h l i r
    rw [deletionsFrom_cons, List.map_append, ih]
    cases hx : (refutingUnit l i (unitsFor s l) r).1 with
    | none =>
      have hn : ¬ s.Refutes l := fun hl => by simpa [hx] using hiff.2 hl
      simp [hn]
    | some x =>
      have hl : s.Refutes l := hiff.1 (by rw [hx]; rfl)
      have hi : x.position = i := ((refutingUnit_spec l i (unitsFor s l) r).1 x hx).1
      simp [hl, hi]

/-- Each literal that goes has an active unit that refutes it. -/
theorem exists_refutes_of_mem_deletionsFrom (h : s.Exact) {x : Deletion}
    (hx : x ∈ (deletionsFrom s ps r).1) : x.unit ∈ s.clauses ∧ ∃ l, x.unit.Refutes l := by
  induction ps generalizing r with
  | nil => cases hx
  | cons p ps ih =>
    obtain ⟨l, i⟩ := p
    rw [deletionsFrom_cons] at hx
    rcases List.mem_append.1 hx with hx | hx
    · obtain ⟨-, hmem, hr⟩ :=
        (refutingUnit_spec l i (unitsFor s l) r).1 x (Option.mem_toList.1 hx)
      exact ⟨mem_clauses_of_mem_unitsFor h hmem, l, hr⟩
    · exact ih hx

theorem deletions_eq_nil_iff (h : s.Exact) (c : Clause) (r : Renamer) :
    (deletions s c r).1 = [] ↔ ∀ l ∈ c.literals, ¬ s.Refutes l := by
  have hmap := map_position_deletionsFrom h c.literals.zipIdx r
  rw [← List.map_eq_nil_iff (f := Deletion.position), deletions, hmap, List.map_eq_nil_iff,
    List.filter_eq_nil_iff]
  constructor
  · intro hnone l hl
    obtain ⟨i, hi⟩ := List.mem_iff_getElem?.1 hl
    simpa using hnone (l, i) (List.mk_mem_zipIdx_iff_getElem?.2 hi)
  · rintro hnone ⟨l, i⟩ hp
    have hl : l ∈ c.literals := List.mem_of_getElem? (List.mk_mem_zipIdx_iff_getElem?.1 hp)
    simpa using hnone l hl

/-! ### Shortened clauses -/

/-- The literals that are left stand in their old order. -/
theorem literals_unitDeleted (h : s.Exact) (f : Filed) (r : Renamer) :
    (unitDeleted f (deletions s f.clause r).1).clause.literals =
      f.clause.literals.filter fun l => ¬ s.Refutes l := by
  have hmap := map_position_deletionsFrom h f.clause.literals.zipIdx r
  have hpositions : ((deletions s f.clause r).1.map fun x => (x.position : Int)) =
      ((f.clause.literals.zipIdx.filter fun p => s.Refutes p.1).map Prod.snd).map
        fun (i : Nat) => (i : Int) := by
    rw [← hmap, List.map_map]
    rfl
  have hdrop : dropAt ((deletions s f.clause r).1.map fun x => (x.position : Int))
      f.clause.literals = f.clause.literals.filter fun l => ¬ s.Refutes l := by
    rw [hpositions, dropAt_positions fun l => decide (s.Refutes l)]
    simp
  rw [unitDeleted, hdrop, Clause.literals_ofList (f.clause.nodup.filter _)]

/-- What a clause is shortened to: `short` lacks the literals of `d` that the active clauses of `s`
refute, and no other. -/
structure DeletesRefuted (s : Store) (d : Derived) (short : Shortened) : Prop where
  literals : short.result.clause.literals = d.clause.literals.filter fun l => ¬ s.Refutes l
  /-- It follows from `d` and from the active units that it names. -/
  follows : ∃ us : List Filed,
    Arena.parentsOf short.result = .int short.id :: us.map (fun u => .int u.id) ∧
      (∀ u ∈ us, u ∈ s.clauses ∧ u.clause.length = 1) ∧
      ∀ {D : Type w} (M : Structure D), M.Satisfies d.clause →
        (∀ u ∈ us, M.Satisfies u.clause) → M.Satisfies short.result.clause
  subsumes : short.result.clause.subsumes d.clause = true
  /-- Whatever the arena, the index and the names are, it is not shortened again while the same
  clauses are active. -/
  settled : ∀ (a : Arena) (added : List Filed) (s' : Store) (id : Option Nat) (r : Renamer),
    Store.Reached a added s' → s'.clauses = s.clauses → (simplify s' short.result id r).1 = none
  hasDepth : d.HasLevel → (∀ u ∈ s.clauses, u.derived.HasLevel) → short.result.hasDepth = true

/-- A clause is left alone, or numbered unless it has a number, and shortened. -/
theorem simplify_eq (s : Store) (d : Derived) (id : Option Nat) (r : Renamer) :
    simplify s d id r =
      if (deletions s d.clause r).1 = [] then (none, s, (deletions s d.clause r).2)
      else (some ⟨id.getD s.arena.size,
          unitDeleted ⟨id.getD s.arena.size, d⟩ (deletions s d.clause r).1,
          (deletions s d.clause r).1.length⟩,
        if id.isSome then s else (s.addToArena d).2, (deletions s d.clause r).2) := by
  rw [simplify.eq_def]
  generalize deletions s d.clause r = p
  obtain ⟨xs, r'⟩ := p
  cases xs with
  | nil => rfl
  | cons x xs => cases id <;> rfl

theorem simplify_eq_none_iff (h : s.Exact) (d : Derived) (id : Option Nat) (r : Renamer) :
    (simplify s d id r).1 = none ↔ ∀ l ∈ d.clause.literals, ¬ s.Refutes l := by
  rw [simplify_eq, ← deletions_eq_nil_iff h d.clause r]
  split
  · next hnil => simp [hnil]
  · next hne => simp [hne]

theorem deletesRefuted_unitDeleted (h : s.Exact) (f : Filed) (r : Renamer) (n : Nat) :
    DeletesRefuted.{w} s f.derived ⟨f.id, unitDeleted f (deletions s f.clause r).1, n⟩ where
  literals := literals_unitDeleted h f r
  follows := by
    refine ⟨(deletions s f.clause r).1.map Deletion.unit, ?_, ?_, ?_⟩
    · simp [Arena.parentsOf, unitDeleted, Function.comp_def]
    · intro u hu
      obtain ⟨x, hx, rfl⟩ := List.mem_map.1 hu
      obtain ⟨hmem, l, hr⟩ := exists_refutes_of_mem_deletionsFrom h hx
      exact ⟨hmem, (Filed.refutes_iff.1 hr).1⟩
    · intro D M hd hunits
      exact unitDeleted_satisfies hd fun x hx => hunits x.unit (List.mem_map_of_mem hx)
  subsumes := Clause.subsumes_iff.2 (unitDeleted_covers f _)
  settled := by
    intro a added s' id r' hs' hsame
    rw [simplify_eq_none_iff hs'.exact.1]
    intro l hl hr
    rw [literals_unitDeleted h f r] at hl
    obtain ⟨u, hu, hul⟩ := hr
    have hn : ¬ s.Refutes l := by simpa using (List.mem_filter.1 hl).2
    exact hn ⟨u, hsame ▸ hu, hul⟩
  hasDepth := by
    intro hd hs
    refine (Derived.hasLevel_deepest rfl hd fun e he => ?_).hasDepth
    obtain ⟨x, hx, rfl⟩ := List.mem_map.1 he
    exact hs x.unit (exists_refutes_of_mem_deletionsFrom h hx).1

/-- Unit deletion takes away exactly the literals that an active unit refutes, once and for all. -/
theorem simplify_exact {a : Arena} {added : List Filed} (h : Store.Reached a added s)
    (d : Derived) (id : Option Nat) (r : Renamer) :
    ((simplify s d id r).1 = none ↔ ∀ l ∈ d.clause.literals, ¬ s.Refutes l) ∧
      ∀ short s' r', simplify s d id r = (some short, s', r') →
        short.id = id.getD s.arena.size ∧
          s' = (if id.isSome then s else (s.addToArena d).2) ∧
          s'.clauses = s.clauses ∧ DeletesRefuted.{w} s d short := by
  obtain ⟨hexact, -⟩ := h.exact
  refine ⟨simplify_eq_none_iff hexact d id r, ?_⟩
  intro short s' r' heq
  rw [simplify_eq] at heq
  split at heq
  · cases heq
  · cases heq
    refine ⟨rfl, rfl, ?_, deletesRefuted_unitDeleted hexact ⟨id.getD s.arena.size, d⟩ r _⟩
    split
    · rfl
    · exact Store.clauses_addToArena hexact.valid d

/-- The successor of an odd `x` that is even is not less than its own successor. -/
def oddAndEven : Derived := ⟨.ofList
  [.neg ⟨"even", [.var "x"]⟩,
    .neg ⟨"less", [.app "succ" [.var "x"], .app "succ" [.app "succ" [.var "x"]]]⟩,
    .neg ⟨"odd", [.var "x"]⟩], none⟩

def evenZero : Derived := ⟨.ofList [.pos ⟨"even", [.const "zero"]⟩], none⟩

-- the unit that refutes has the variable of the clause, and a unit refutes nothing more general
theorem simplify_exact_oddAndEven :
    ∃ s short s' r', Store.Reached {} [⟨0, evenZero⟩, ⟨1, Store.lessSucc⟩] s ∧
      simplify s oddAndEven none {} = (some short, s', r') ∧ short.id = 2 ∧
      short.result.clause.literals =
        [.neg ⟨"even", [.var "x"]⟩, .neg ⟨"odd", [.var "x"]⟩] ∧
      (Arena.parentsOf short.result).map Item.int? = [some 2, some 1] ∧
      DeletesRefuted.{0} s oddAndEven short ∧
      (simplify s' short.result (some 3) r').1 = none := by
  let s₁ : Store := (({} : Store).insert true evenZero).2
  let s : Store := (s₁.insert true Store.lessSucc).2
  have hi₁ : ({} : Store).insert true evenZero = (some 0, s₁) := rfl
  have hi₂ : s₁.insert true Store.lessSucc = (some 1, s) := rfl
  have hs : Store.Reached {} [⟨0, evenZero⟩, ⟨1, Store.lessSucc⟩] s :=
    (Store.Reached.start.insert hi₁).insert hi₂
  have hsome : (simplify s oddAndEven none {}).1.isSome = true := by decide +kernel
  obtain ⟨short, hshort⟩ := Option.isSome_iff_exists.1 hsome
  obtain ⟨s', r', heq⟩ : ∃ s' r', simplify s oddAndEven none {} = (some short, s', r') :=
    ⟨_, _, by rw [← hshort]⟩
  obtain ⟨hid, hs', hclauses, hdeletes⟩ := (simplify_exact hs oddAndEven none {}).2 _ _ _ heq
  have hadd := hs.add oddAndEven
  have hs' : (s.addToArena oddAndEven).2 = s' := hs'.symm
  rw [hs'] at hadd
  have hparents : (simplify s oddAndEven none {}).1.map
      (fun x => (Arena.parentsOf x.result).map Item.int?) = some [some 2, some 1] := by
    decide +kernel
  refine ⟨s, short, s', r', hs, heq, hid, hdeletes.literals.trans (by decide +kernel), ?_, hdeletes,
    hdeletes.settled _ _ _ _ _ hadd hclauses⟩
  rw [hshort] at hparents
  exact Option.some.inj hparents

end Inference

end Elenchus

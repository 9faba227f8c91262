import Elenchus.NormalForm.Basic
import Elenchus.Proofs.Skolemization

/-! Clause normal form has the structures of the formula, expanded at new Skolem symbols only. -/

namespace Elenchus

universe u

variable {D : Type u} {M : Structure D} {v : String → D}

namespace Formula

variable {f g : Formula} {x : String} {a : Atom} {l : Literal} {ls : List Literal}

/-! ### The matrix -/

theorem vars_atoms (ha : a ∈ f.atoms) (hx : x ∈ a.vars) : x ∈ f.freeVars ∨ x ∈ f.boundNames := by
  induction f with
  | atomic b => exact Or.inl (List.mem_singleton.1 ha ▸ hx)
  | not f ih => exact ih ha
  | and f g ihf ihg | or f g ihf ihg | implies f g ihf ihg | iff f g ihf ihg =>
    simp only [freeVars, boundNames, List.mem_append]
    rcases List.mem_append.1 ha with ha | ha
    · exact (ihf ha).imp Or.inl Or.inl
    · exact (ihg ha).imp Or.inr Or.inr
  | all b f ih | ex b f ih =>
    cases b with
    | other i => exact ih ha
    | var y =>
      simp only [freeVars, boundNames, List.mem_filter, bne_iff_ne, List.mem_cons]
      by_cases hxy : x = y
      · exact Or.inr (Or.inl hxy)
      · exact (ih ha).imp (fun h => ⟨h, hxy⟩) Or.inr
  | stray i => simp [atoms] at ha

theorem IsUniversal.freeVars_matrix (hf : f.IsUniversal) (hx : x ∈ f.matrix.freeVars) :
    x ∈ f.freeVars ∨ x ∈ f.boundNames := by
  induction hf with
  | atomic a | negated a => exact Or.inl hx
  | and _ _ ihf ihg | or _ _ ihf ihg =>
    simp only [freeVars, boundNames, List.mem_append]
    rcases List.mem_append.1 hx with hx | hx
    · exact (ihf hx).imp Or.inl Or.inl
    · exact (ihg hx).imp Or.inr Or.inr
  | @all y f _ ih =>
    simp only [freeVars, boundNames, List.mem_filter, bne_iff_ne, List.mem_cons]
    by_cases hxy : x = y
    · exact Or.inr (Or.inl hxy)
    · exact (ih hx).imp (fun h => ⟨h, hxy⟩) Or.inr

/-- Values for the bound variables of another part of a formula do not matter. -/
theorem IsUniversal.matrix_congr {w w' : String → D} {xs : List String} (hf : f.IsUniversal)
    (hxs : ∀ x ∈ f.freeVars, x ∉ xs) (hw : ∀ x ∈ f.boundNames, w x = w' x)
    (hfree : ∀ x, x ∉ f.boundNames → x ∉ xs → w x = w' x) :
    f.matrix.Holds M w ↔ f.matrix.Holds M w' := by
  refine holds_congr fun x hx => ?_
  by_cases hb : x ∈ f.boundNames
  · exact hw x hb
  · exact hfree x hb (hxs x ((hf.freeVars_matrix hx).resolve_right hb))

/-- The condition under which quantifiers can be moved, for the two parts of a formula. -/
theorem distinct_parts (hn : (f.boundNames ++ g.boundNames).Nodup)
    (hd : ∀ x ∈ f.freeVars ++ g.freeVars, x ∉ f.boundNames ++ g.boundNames) :
    (f.boundNames.Nodup ∧ (∀ x ∈ f.freeVars, x ∉ f.boundNames) ∧
        ∀ x ∈ f.freeVars, x ∉ g.boundNames) ∧
      (g.boundNames.Nodup ∧ (∀ x ∈ g.freeVars, x ∉ g.boundNames) ∧
        ∀ x ∈ g.freeVars, x ∉ f.boundNames) ∧
      ∀ x ∈ f.boundNames, x ∉ g.boundNames := by
  obtain ⟨hf, hg, hfg⟩ := List.nodup_append.1 hn
  simp only [List.mem_append, not_or] at hd
  exact ⟨⟨hf, fun x hx => (hd x (Or.inl hx)).1, fun x hx => (hd x (Or.inl hx)).2⟩,
    ⟨hg, fun x hx => (hd x (Or.inr hx)).2, fun x hx => (hd x (Or.inr hx)).1⟩,
    fun x hx hy => hfg x hx x hy rfl⟩

/-- What holds for all values of its own bound variables holds for all values of more. -/
theorem IsUniversal.matrix_of_own {w : String → D} {xs : List String} (hf : f.IsUniversal)
    (hxs : ∀ x ∈ f.freeVars, x ∉ xs) (hw : ∀ x, x ∉ f.boundNames → x ∉ xs → w x = v x)
    (h : ∀ w, (∀ x, x ∉ f.boundNames → w x = v x) → f.matrix.Holds M w) :
    f.matrix.Holds M w := by
  classical
  have hown := h (fun x => if x ∈ f.boundNames then w x else v x) fun x hx => if_neg hx
  refine (hf.matrix_congr hxs (fun x hx => if_pos hx) fun x hx hy => ?_).1 hown
  exact (if_neg hx).trans (hw x hx hy).symm

/-- Quantifiers of distinct variables can all be taken to the front. -/
theorem IsUniversal.holds_iff_matrix (hf : f.IsUniversal) (hn : f.boundNames.Nodup)
    (hd : ∀ x ∈ f.freeVars, x ∉ f.boundNames) :
    f.Holds M v ↔ ∀ w, (∀ x, x ∉ f.boundNames → w x = v x) → f.matrix.Holds M w := by
  classical
  induction hf generalizing v with
  | atomic a | negated a =>
    refine ⟨fun h w hw => ?_, fun h => h v fun _ _ => rfl⟩
    exact (funext fun x => hw x (by simp [boundNames]) : w = v) ▸ h
  | @and f g hf hg ihf ihg =>
    obtain ⟨⟨nf, df, dfg⟩, ⟨ng, dg, dgf⟩, -⟩ := distinct_parts hn hd
    simp only [Holds, matrix, boundNames, ihf nf df, ihg ng dg, List.mem_append, not_or]
    constructor
    · rintro ⟨h1, h2⟩ w hw
      exact ⟨hf.matrix_of_own dfg (fun x hx hy => hw x ⟨hx, hy⟩) h1,
        hg.matrix_of_own dgf (fun x hx hy => hw x ⟨hy, hx⟩) h2⟩
    · exact fun h => ⟨fun w hw => (h w fun x hx => hw x hx.1).1,
        fun w hw => (h w fun x hx => hw x hx.2).2⟩
  | @or f g hf hg ihf ihg =>
    obtain ⟨⟨nf, df, dfg⟩, ⟨ng, dg, dgf⟩, hfg⟩ := distinct_parts hn hd
    simp only [Holds, matrix, boundNames, ihf nf df, ihg ng dg, List.mem_append, not_or]
    constructor
    · rintro (h | h) w hw
      · exact Or.inl (hf.matrix_of_own dfg (fun x hx hy => hw x ⟨hx, hy⟩) h)
      · exact Or.inr (hg.matrix_of_own dgf (fun x hx hy => hw x ⟨hy, hx⟩) h)
    · -- counterexamples for both sides would make one for the disjunction
      intro h
      by_contra hno
      simp only [not_or, not_forall] at hno
      obtain ⟨⟨w₁, hw₁, n₁⟩, w₂, hw₂, n₂⟩ := hno
      let w : String → D := fun x =>
        if x ∈ f.boundNames then w₁ x else if x ∈ g.boundNames then w₂ x else v x
      rcases h w fun x hx => by simp [w, hx] with h | h
      · refine n₁ ((hf.matrix_congr dfg (fun x hx => ?_) fun x hx hy => ?_).1 h)
        · simp [w, hx]
        · simp [w, hx, hy, hw₁ x hx]
      · refine n₂ ((hg.matrix_congr dgf (fun x hx => ?_) fun x hx hy => ?_).1 h)
        · have hxf : x ∉ f.boundNames := fun hm => hfg x hm hx
          simp [w, hxf, hx]
        · simp [w, hx, hy, hw₂ x hx]
  | @all x f hf ih =>
    obtain ⟨hx, nf⟩ := List.nodup_cons.1 hn
    have df : ∀ z ∈ f.freeVars, z ∉ f.boundNames := fun z hz hb => by
      have hzx : z ≠ x := fun he => hx (he ▸ hb)
      exact hd z (mem_freeVars_quantified hz hzx) (List.mem_cons_of_mem _ hb)
    simp only [Holds, matrix, boundNames, ih nf df, List.mem_cons, not_or]
    constructor
    · intro h w hw
      refine h (w x) w fun z hz => ?_
      by_cases hzx : z = x
      · rw [hzx, Function.update_self]
      · rw [Function.update_of_ne hzx, hw z ⟨hzx, hz⟩]
    · intro h d w hw
      refine h w fun z hz => ?_
      rw [hw z hz.2, Function.update_of_ne hz.1]

/-- A closed formula is true exactly if its matrix is true for all values. -/
theorem IsUniversal.models_matrix (hf : f.IsUniversal) (hn : f.boundNames.Nodup)
    (hc : f.freeVars = []) : M.Models f ↔ M.Models f.matrix := by
  have hd : ∀ x ∈ f.freeVars, x ∉ f.boundNames := by simp [hc]
  refine ⟨fun h w => ?_, fun h v => ?_⟩
  · exact (hf.holds_iff_matrix hn hd).1 (h w) w fun _ _ => rfl
  · exact (hf.holds_iff_matrix hn hd).2 fun w _ => h w

/-! ### Conjuncts -/

theorem IsUniversal.holds_conjuncts (hf : f.IsUniversal) :
    f.matrix.Holds M v ↔ ∀ ls ∈ f.matrix.conjuncts, ∃ l ∈ ls, l.Holds M v := by
  induction hf with
  | atomic a => simp [matrix, conjuncts, Holds, Literal.Holds, Literal.pos]
  | negated a => simp [matrix, conjuncts, Holds, Literal.Holds, Literal.neg]
  | and _ _ ihf ihg =>
    simp only [matrix, conjuncts, Holds, ihf, ihg, List.mem_append, or_imp, forall_and]
  | @or f g _ _ ihf ihg =>
    simp only [matrix, conjuncts, Holds, ihf, ihg, List.mem_flatMap, List.mem_map]
    constructor
    · rintro h _ ⟨ls, hls, ms, hms, rfl⟩
      rcases h with h | h
      · obtain ⟨l, hl, hv⟩ := h ls hls
        exact ⟨l, List.mem_append_left _ hl, hv⟩
      · obtain ⟨l, hl, hv⟩ := h ms hms
        exact ⟨l, List.mem_append_right _ hl, hv⟩
    · intro h
      by_contra hno
      simp only [not_or, not_forall] at hno
      obtain ⟨⟨ls, hls, n₁⟩, ms, hms, n₂⟩ := hno
      obtain ⟨l, hl, hv⟩ := h _ ⟨ls, hls, ms, hms, rfl⟩
      rcases List.mem_append.1 hl with hl | hl
      · exact n₁ ⟨l, hl, hv⟩
      · exact n₂ ⟨l, hl, hv⟩
  | all _ ih => exact ih

theorem IsUniversal.atom_mem_of_conjuncts (hf : f.IsUniversal) (hls : ls ∈ f.matrix.conjuncts)
    (hl : l ∈ ls) : l.atom ∈ f.atoms := by
  induction hf generalizing ls with
  | atomic a | negated a =>
    simp only [matrix, conjuncts, List.mem_singleton] at hls
    subst hls
    simp only [List.mem_singleton] at hl
    subst hl
    exact List.mem_singleton_self _
  | and _ _ ihf ihg =>
    exact List.mem_append.2 ((List.mem_append.1 hls).imp (ihf · hl) (ihg · hl))
  | or _ _ ihf ihg =>
    simp only [matrix, conjuncts, List.mem_flatMap, List.mem_map] at hls
    obtain ⟨ls₁, h1, ls₂, h2, rfl⟩ := hls
    exact List.mem_append.2 ((List.mem_append.1 hl).imp (ihf h1) (ihg h2))
  | all _ ih => exact ih hls hl

end Formula

theorem mem_of_mem_dropAlike {c : Clause} {cs : List Clause} (h : c ∈ dropAlike cs) : c ∈ cs := by
  induction cs with
  | nil => exact h
  | cons d cs ih =>
    rcases List.mem_cons.1 h with rfl | h
    · exact List.mem_cons_self ..
    · exact List.mem_cons_of_mem _ (ih (List.mem_filter.1 h).1)

/-- Of every clause one that is like it stays. -/
theorem exists_alike_dropAlike {c : Clause} {cs : List Clause} (h : c ∈ cs) :
    ∃ d ∈ dropAlike cs, d.alike c = true := by
  induction cs with
  | nil => simp at h
  | cons e cs ih =>
    rcases List.mem_cons.1 h with rfl | h
    · exact ⟨c, List.mem_cons_self .., Clause.alike_self c⟩
    · obtain ⟨d, hd, hdc⟩ := ih h
      by_cases hed : e.alike d = true
      · refine ⟨e, List.mem_cons_self .., Clause.alike_iff.2 ⟨?_, fun l hl => ?_⟩⟩
        · exact (Clause.alike_iff.1 hed).1.trans (Clause.alike_iff.1 hdc).1
        · exact (Clause.mem_iff_of_alike hdc).1 ((Clause.mem_iff_of_alike hed).1 hl)
      · exact ⟨d, List.mem_cons_of_mem _ (List.mem_filter.2 ⟨hd, by simpa using hed⟩), hdc⟩

theorem Formula.IsUniversal.satisfies_clauses {f : Formula} (hf : f.IsUniversal) :
    (∀ c ∈ dropAlike (f.matrix.conjuncts.map Clause.ofList), M.Satisfies c) ↔
      M.Models f.matrix := by
  have hall : (∀ c ∈ dropAlike (f.matrix.conjuncts.map Clause.ofList), M.Satisfies c) ↔
      ∀ ls ∈ f.matrix.conjuncts, M.Satisfies (.ofList ls) := by
    refine ⟨fun h ls hls => ?_, fun h c hc => ?_⟩
    · obtain ⟨d, hd, ha⟩ := exists_alike_dropAlike (List.mem_map_of_mem (f := Clause.ofList) hls)
      exact (h d hd).of_alike ha
    · obtain ⟨ls, hls, rfl⟩ := List.mem_map.1 (mem_of_mem_dropAlike hc)
      exact h ls hls
  rw [hall]
  simp only [Structure.Satisfies, Structure.Models, hf.holds_conjuncts, Clause.Holds,
    Clause.mem_ofList]
  exact ⟨fun h v ls hls => h ls hls v, fun h ls hls v => h v ls hls⟩

/-! ### All passes together -/

namespace Formula

variable {f : Formula} {sig sig' : Signature} {c : Clause}

/-- The formula before Skolemization, and its table. -/
def prepared (f : Formula) (sig : Signature) : Formula × Signature :=
  f.closure.nnf.standardize sig

/-- The formula without existential quantifiers, and the table with the Skolem symbols. -/
def skolemForm (f : Formula) (sig : Signature) : Formula × Signature :=
  (f.prepared sig).1.skolemize (f.prepared sig).2

theorem clauses_eq (f : Formula) (sig : Signature) :
    f.clauses sig =
      (dropAlike ((f.skolemForm sig).1.matrix.conjuncts.map Clause.ofList),
        (f.skolemForm sig).2) :=
  rfl

theorem Proper.isNnf_closure (hf : f.Proper) : f.closure.nnf.IsNnf :=
  hf.closure.isNnf_pushNegations false

theorem freeVars_nnf_closure (f : Formula) : f.closure.nnf.freeVars = [] := by
  have := freeVars_pushNegations f.closure false
  rw [freeVars_closure] at this
  exact List.subset_nil.1 this

theorem Proper.standardized (hf : f.Proper) (sig : Signature) :
    Standardized [] f.closure.nnf sig (f.prepared sig).1 (f.prepared sig).2 :=
  hf.isNnf_closure.standardized [] sig

theorem Proper.models_prepared [Nonempty D] (hf : f.Proper) (sig : Signature) :
    M.Models (f.prepared sig).1 ↔ M.Models f := by
  rw [← models_closure (f := f)]
  refine forall_congr' fun v => ?_
  rw [prepared, hf.isNnf_closure.holds_standardize (freeVars_nnf_closure f), holds_nnf]

theorem Proper.freeVars_prepared (hf : f.Proper) : (f.prepared sig).1.freeVars = [] := by
  rw [List.eq_nil_iff_forall_not_mem]
  intro y hy
  obtain ⟨x, hx, -⟩ := (hf.standardized sig).freeVars y hy
  simp [freeVars_nnf_closure] at hx

theorem Proper.atoms_prepared (hf : f.Proper) {b : Atom} (hb : b ∈ (f.prepared sig).1.atoms) :
    ∃ a ∈ f.atoms, b.predicate = a.predicate ∧ ∀ s ∈ b.symbols, s ∈ a.symbols := by
  obtain ⟨a, ha, he⟩ := (hf.standardized sig).atoms b hb
  exact ⟨a, atoms_closure f ▸ atoms_pushNegations f.closure false ha, he⟩

/-- Standardizing counts variables and changes nothing else in the table. -/
theorem Proper.grows_prepared (hf : f.Proper) : sig.Grows (f.prepared sig).2 := by
  obtain ⟨k, -, hk⟩ := (hf.standardized sig).signature
  rw [hk]
  exact ⟨fun _ _ h => h, fun _ h => h, fun _ h => Or.inl h⟩

theorem Proper.skolemizable (hf : f.Proper)
    (hk : ∀ a ∈ f.atoms, ∀ s ∈ a.symbols, sig.contains s.name = true) :
    Skolemizable [] .empty (f.prepared sig).1 (f.prepared sig).2 where
  nodup := (hf.standardized sig).nodup
  unbound _ _ := ⟨List.not_mem_nil, rfl⟩
  inScope := by simp [hf.freeVars_prepared]
  known := by
    intro b hb s hs
    obtain ⟨a, ha, -, hsub⟩ := hf.atoms_prepared hb
    exact hf.grows_prepared.contains (hk a ha s (hsub s hs))
  knownValues := by simp [hf.freeVars_prepared]

/-- What the clauses of a formula have from the formula and from the table. -/
structure HasClauses (f : Formula) (sig : Signature) (cs : List Clause) (sig' : Signature) :
    Prop where
  grows : sig.Grows sig'
  standard : ∀ c ∈ cs, ∀ x ∈ c.vars, IsStandard x
  known : ∀ c ∈ cs, ∀ s ∈ c.symbols, sig'.contains s.name = true
  predicates : ∀ c ∈ cs, ∀ l ∈ c.literals, ∃ a ∈ f.atoms, l.atom.predicate = a.predicate

theorem HasClauses.preds {cs : List Clause} {sig' : Signature} (h : HasClauses f sig cs sig') :
    ∀ c ∈ cs, ∀ l ∈ c.literals, ∃ a ∈ f.atoms, l.atom.pred = a.pred := by
  intro c hc l hl
  obtain ⟨a, ha, he⟩ := h.predicates c hc l hl
  exact ⟨a, ha, congrArg Symbol.name he⟩

section
variable (hf : f.Proper) (hk : ∀ a ∈ f.atoms, ∀ s ∈ a.symbols, sig.contains s.name = true)
include hf hk

theorem Proper.skolemized : Skolemized [] (f.prepared sig).1 (f.prepared sig).2
    (f.skolemForm sig).1 (f.skolemForm sig).2 :=
  (hf.skolemizable hk).skolemized (hf.standardized sig).isNnf

theorem Proper.atom_mem_skolemForm (hc : c ∈ (f.clauses sig).1) {l : Literal}
    (hl : l ∈ c.literals) : l.atom ∈ (f.skolemForm sig).1.atoms := by
  rw [clauses_eq] at hc
  obtain ⟨ls, hls, rfl⟩ := List.mem_map.1 (mem_of_mem_dropAlike hc)
  exact (hf.skolemized hk).isUniversal.atom_mem_of_conjuncts hls (Clause.mem_ofList.1 hl)

theorem Proper.hasClauses : HasClauses f sig (f.clauses sig).1 (f.clauses sig).2 := by
  have hsk := hf.skolemized hk
  have hatom : ∀ c ∈ (f.clauses sig).1, ∀ l ∈ c.literals, l.atom ∈ (f.skolemForm sig).1.atoms :=
    fun c hc l hl => hf.atom_mem_skolemForm hk hc hl
  rw [clauses_eq] at hatom ⊢
  refine ⟨hf.grows_prepared.trans hsk.grows, fun c hc x hx => ?_, fun c hc s hs => ?_,
    fun c hc l hl => ?_⟩
  · obtain ⟨l, hl, hx⟩ := Clause.mem_vars.1 hx
    rcases vars_atoms (hatom c hc l hl) hx with hfree | hbound
    · exact absurd (hsk.freeVars x hfree) List.not_mem_nil
    · exact ((hf.standardized sig).numbered x (hsk.boundNames.subset hbound)).isStandard
  · obtain ⟨l, hl, hs⟩ := List.mem_flatMap.1 hs
    exact hsk.known _ (hatom c hc l hl) s hs
  · obtain ⟨b, hb, he⟩ := hsk.predicates _ (hatom c hc l hl)
    obtain ⟨a, ha, hba, -⟩ := hf.atoms_prepared hb
    exact ⟨a, ha, he.trans hba⟩

theorem Proper.satisfies_clauses :
    (∀ c ∈ (f.clauses sig).1, M.Satisfies c) ↔ M.Models (f.skolemForm sig).1 := by
  have hsk := hf.skolemized hk
  have hclosed : (f.skolemForm sig).1.freeVars = [] := by
    rw [List.eq_nil_iff_forall_not_mem]
    exact fun y hy => List.not_mem_nil (hsk.freeVars y hy)
  have hnodup := hsk.boundNames.nodup (hf.standardized sig).nodup
  rw [clauses_eq, hsk.isUniversal.models_matrix hnodup hclosed]
  exact hsk.isUniversal.satisfies_clauses

theorem Proper.models_of_clauses [Nonempty D] (h : ∀ c ∈ (f.clauses sig).1, M.Satisfies c) :
    M.Models f := by
  rw [← hf.models_prepared sig]
  intro v
  exact (hf.skolemizable hk).holds_of_skolemizeFrom (hf.standardized sig).isNnf
    ((hf.satisfies_clauses hk).1 h v)

theorem Proper.exists_expansion [Nonempty D] (h : M.Models f) :
    ∃ N : Structure D, N.Expands M (sig.AddsSkolem (f.clauses sig).2) ∧
      ∀ c ∈ (f.clauses sig).1, N.Satisfies c := by
  rw [← hf.models_prepared sig] at h
  obtain ⟨N, hN, hv⟩ :=
    (hf.skolemizable hk).exists_expansion (hf.standardized sig).isNnf M
  rw [clauses_eq]
  refine ⟨N, hN.mono fun s hs => hs.mono_left hf.grows_prepared, ?_⟩
  exact (hf.satisfies_clauses hk).2 fun v => hv v (h v)

end

end Formula

/-! ### The check -/

namespace Formula

variable {f : Formula} {a : Atom} {allowReserved : Bool} {arities : List Item}

theorem mem_asWritten {u : SymbolUse} {us : List SymbolUse} (h : u ∈ us) (arities : List Item) :
    ∃ w ∈ asWritten us arities, w.name = u.name ∧ w.entry.kind = u.entry.kind ∧
      (w.entry.arity = u.entry.arity ∨ (u, w.entry.arity) ∈ us.zip arities) := by
  induction us generalizing arities with
  | nil => simp at h
  | cons t us ih =>
    cases arities with
    | nil => exact ⟨u, h, rfl, rfl, Or.inl rfl⟩
    | cons n ns =>
      rcases List.mem_cons.1 h with rfl | h
      · exact ⟨_, List.mem_cons_self .., rfl, rfl, Or.inr (List.mem_cons_self ..)⟩
      · obtain ⟨w, hw, hname, hkind, harity⟩ := ih h ns
        exact ⟨w, List.mem_cons_of_mem _ hw, hname, hkind,
          harity.imp_right (List.mem_cons_of_mem _)⟩

theorem exists_use_of_symbol (ha : a ∈ f.atoms) {s : Symbol} (hs : s ∈ a.symbols) :
    ∃ u ∈ f.uses allowReserved arities, u.name = s.name := by
  have hu : (⟨s.name, .function, .int s.arity⟩ : SymbolUse) ∈ f.atoms.flatMap atomUses :=
    List.mem_flatMap.2 ⟨a, ha, List.mem_cons_of_mem _ (List.mem_map.2 ⟨s, hs, rfl⟩)⟩
  obtain ⟨w, hw, hn, hk, -⟩ := mem_asWritten hu arities
  refine ⟨w, List.mem_filter.2 ⟨hw, ?_⟩, hn⟩
  have : (SymbolKind.function.same .predicate) = false := by
    simp [SymbolKind.same, SymbolKind.label, Item.same]
  simp [hk, this]

theorem exists_use_of_pred (ha : a ∈ f.atoms) :
    ∃ u ∈ f.uses false arities, u.name = a.pred := by
  have hu : (⟨a.pred, .predicate, .int a.args.length⟩ : SymbolUse) ∈ f.atoms.flatMap atomUses :=
    List.mem_flatMap.2 ⟨a, ha, List.mem_cons_self ..⟩
  obtain ⟨w, hw, hn, -⟩ := mem_asWritten hu arities
  exact ⟨w, List.mem_filter.2 ⟨hw, by simp⟩, hn⟩

end Formula

namespace Signature

variable {sig sig' : Signature} {allowReserved : Bool} {us : List SymbolUse} {u : SymbolUse}
  {f : Formula} {arities : List Item}

theorem declare_grows {name : String} {use : SymbolEntry} (h : sig.declare name use = .ok sig') :
    sig.Grows sig' ∧ sig'.skolems = sig.skolems ∧ sig'.contains name = true := by
  rw [declare] at h
  split at h
  · next hn =>
    cases h
    refine ⟨⟨fun n e he => ?_, fun _ h => h, fun _ h => Or.inl h⟩, rfl, ?_⟩
    · have hne : n ≠ name := by
        rintro rfl
        simp [hn] at he
      exact (find?_append_new hn).trans ((if_neg hne).trans he)
    · exact Option.isSome_iff_exists.2 ⟨use, (find?_append_new hn).trans (if_pos rfl)⟩
  · next known hn =>
    split at h
    · simp at h
    · cases h
      exact ⟨.refl sig, rfl, Option.isSome_iff_exists.2 ⟨known, hn⟩⟩

theorem recordUse_grows (h : sig.recordUse allowReserved u = .ok sig') :
    sig.Grows sig' ∧ sig'.skolems = sig.skolems ∧ sig'.contains u.name = true ∧
      u.name ∉ sig.skolems ∧ (isReserved u.name = true → allowReserved = true) := by
  rw [recordUse] at h
  split at h
  · simp at h
  · next hs =>
    split at h
    · simp at h
    · next hr =>
      obtain ⟨hg, hsk, hc⟩ := declare_grows h
      exact ⟨hg, hsk, hc, by simpa [isSkolem] using hs, by simpa using hr⟩

/-- Recorded occurrences are known afterwards, and none is a Skolem symbol. -/
theorem record_grows (h : sig.record allowReserved us = (sig', none)) :
    sig.Grows sig' ∧ sig'.skolems = sig.skolems ∧
      ∀ u ∈ us, sig'.contains u.name = true ∧ u.name ∉ sig.skolems ∧
        (isReserved u.name = true → allowReserved = true) := by
  induction us generalizing sig with
  | nil =>
    simp only [record, Prod.mk.injEq, and_true] at h
    exact h ▸ ⟨.refl sig, rfl, by simp⟩
  | cons t us ih =>
    rw [record] at h
    split at h
    · simp at h
    · next sig₁ ht =>
      obtain ⟨hg, hsk, hc, hn, hr⟩ := recordUse_grows ht
      obtain ⟨hg', hsk', hu⟩ := ih h
      refine ⟨hg.trans hg', hsk'.trans hsk, fun u hm => ?_⟩
      rcases List.mem_cons.1 hm with rfl | hm
      · exact ⟨hg'.contains hc, hn, hr⟩
      · exact hsk ▸ hu u hm

/-- What it means that a table accepts a formula. -/
structure Accepts (sig : Signature) (f : Formula) (sig' : Signature) : Prop where
  proper : f.Proper
  grows : sig.Grows sig'
  skolems : sig'.skolems = sig.skolems
  known : ∀ a ∈ f.atoms, ∀ s ∈ a.symbols, sig'.contains s.name = true
  notSkolem : ∀ a ∈ f.atoms, ∀ s ∈ a.symbols, s.name ∉ sig.skolems

/-- Skolem symbols that come after the check are none of the formula's own symbols. -/
theorem Accepts.not_addsSkolem {sig₁ : Signature} (h : sig.Accepts f sig₁) (hg : sig₁.Grows sig')
    {a : Atom} (ha : a ∈ f.atoms) {s : Symbol} (hs : s ∈ a.symbols) :
    ¬ sig.AddsSkolem sig' s := by
  rintro ⟨hsk, -, -⟩
  rcases hg.fresh _ hsk with hold | hnew
  · exact h.notSkolem a ha s hs (h.skolems ▸ hold)
  · have := h.known a ha s hs
    simp [contains, hnew] at this

theorem check_accepts (h : sig.check allowReserved arities f = (sig', none)) :
    sig.Accepts f sig' ∧ (allowReserved = false → ∀ a ∈ f.atoms, isReserved a.pred = false) := by
  rw [check] at h
  split at h
  · simp at h
  · next hb =>
    split at h
    · simp at h
    · next sig₁ hrec =>
      obtain ⟨hg, hsk, hu⟩ := record_grows hrec
      split at h
      · cases h
        refine ⟨⟨Formula.proper_of_binderFault hb, hg, hsk, fun a ha s hs => ?_,
          fun a ha s hs => ?_⟩, fun hr a ha => ?_⟩
        · obtain ⟨u, hm, hn⟩ := Formula.exists_use_of_symbol ha hs
          exact hn ▸ (hu u hm).1
        · obtain ⟨u, hm, hn⟩ := Formula.exists_use_of_symbol ha hs
          exact hn ▸ (hu u hm).2.1
        · subst hr
          obtain ⟨u, hm, hn⟩ := Formula.exists_use_of_pred ha
          simpa [hn] using (hu u hm).2.2
      · simp at h

theorem normalizeUnchecked_eq_ok {o : NormalFormOptions} {ds : List Derived}
    (h : sig.normalizeUnchecked o f = (.ok ds, sig')) :
    ds = (f.clauses sig).1.map (⟨·, some (.premise o.source o.role o.rule)⟩) ∧
      sig' = (f.clauses sig).2 := by
  rw [normalizeUnchecked] at h
  split at h
  · simp at h
  · obtain ⟨hds, rfl⟩ := Prod.mk.inj h
    exact ⟨(Except.ok.inj hds).symm, rfl⟩

theorem normalizeChecked_of_normalize {o : NormalFormOptions} {ds : List Derived}
    (h : sig.normalize o f = (.ok ds, sig')) : sig.normalizeChecked o f = (.ok ds, sig') := by
  rw [normalize.eq_def] at h
  split at h
  · simp at h
  · split at h
    · next hc => exact hc.trans h
    · simp at h

/-- A formula that is refused leaves the table as it was, whatever was recorded on the way. -/
theorem normalize_eq_error {o : NormalFormOptions} {e : NormalFormError}
    (h : sig.normalize o f = (.error e, sig')) : sig' = sig := by
  rw [normalize.eq_def] at h
  split at h
  · exact (Prod.mk.inj h).2.symm
  · split at h
    · simp at h
    · exact (Prod.mk.inj h).2.symm

theorem normalize_eq_ok {o : NormalFormOptions} {ds : List Derived} (ho : o.check = true)
    (h : sig.normalize o f = (.ok ds, sig')) :
    ∃ sig₁, sig.check o.allowReserved o.arities f = (sig₁, none) ∧
      sig₁.normalizeUnchecked o f = (.ok ds, sig') := by
  have hc := normalizeChecked_of_normalize h
  rw [normalizeChecked, if_pos ho] at hc
  split at hc
  · simp at hc
  · next sig₁ hpass => exact ⟨sig₁, hpass, hc⟩

/-- Clause normal form is faithful. Whatever table is given, the Skolem symbols added to it by the
normal form of an accepted formula are no symbols of that formula. A structure makes the formula
true exactly if one that differs from it at most at these symbols makes all the clauses true. -/
theorem normalize_faithful {o : NormalFormOptions} {ds : List Derived} (ho : o.check = true)
    (h : sig.normalize o f = (.ok ds, sig')) :
    (∀ s, sig.AddsSkolem sig' s → ∀ a ∈ f.atoms, s ∉ a.symbols) ∧
      ∀ {D : Type u} [Nonempty D] (M : Structure D),
        M.Models f ↔ ∃ N : Structure D, N.Expands M (sig.AddsSkolem sig') ∧
          ∀ d ∈ ds, N.Satisfies d.clause := by
  obtain ⟨sig₁, hc, hu⟩ := normalize_eq_ok ho h
  obtain ⟨rfl, rfl⟩ := normalizeUnchecked_eq_ok hu
  obtain ⟨hacc, -⟩ := check_accepts hc
  have hgrows := (hacc.proper.hasClauses hacc.known).grows
  have hnew : ∀ a ∈ f.atoms, ∀ s ∈ a.symbols, ¬ sig.AddsSkolem (f.clauses sig₁).2 s :=
    fun a ha s hs => hacc.not_addsSkolem hgrows ha hs
  refine ⟨fun s hs a ha hm => hnew a ha s hm hs, fun M => ⟨fun hM => ?_, ?_⟩⟩
  · obtain ⟨N, hN, hsat⟩ := hacc.proper.exists_expansion hacc.known hM
    exact ⟨N, hN.mono fun s hs => hs.mono_left hacc.grows, List.forall_mem_map.2 hsat⟩
  · rintro ⟨N, hN, hsat⟩
    rw [← Formula.models_expands hN hnew]
    refine hacc.proper.models_of_clauses hacc.known fun c hc => ?_
    exact hsat _ (List.mem_map_of_mem hc)

/-- Everything has something greater. -/
def unbounded : Formula :=
  .all (.var "x") (.ex (.var "y") (.atomic ⟨"less", [.var "x", .var "y"]⟩))

/-- The natural numbers in their order; functions do not matter here. -/
def naturals : Structure Nat := ⟨fun _ _ => 0, fun _ ds => ds.Pairwise (· < ·)⟩

theorem normalize_faithful_unbounded :
    ∃ ds sig', Signature.normalize {} {} unbounded = (.ok ds, sig') ∧
      ds.map Derived.clause =
        [.ofList [.pos ⟨"less", [.var "x1", .app "sk1" [.var "x1"]]⟩]] ∧
      ∃ N : Structure Nat, N.Expands naturals (Signature.AddsSkolem {} sig') ∧
        ∀ d ∈ ds, N.Satisfies d.clause := by
  have hcs : (Signature.normalize {} {} unbounded).1.toOption.map (·.map Derived.clause) =
      some [.ofList [.pos ⟨"less", [.var "x1", .app "sk1" [.var "x1"]]⟩]] := by
    decide +kernel
  have hM : naturals.Models unbounded := fun v n => by
    refine ⟨n + 1, ?_⟩
    simp [Formula.Holds, Atom.Holds, naturals]
  obtain ⟨ds, hds, hcs⟩ := Option.map_eq_some_iff.1 hcs
  have h : Signature.normalize {} {} unbounded = (.ok ds, _) :=
    Prod.ext (eq_ok_of_toOption hds) rfl
  exact ⟨ds, _, h, hcs, ((normalize_faithful rfl h).2 naturals).1 hM⟩

end Signature

end Elenchus

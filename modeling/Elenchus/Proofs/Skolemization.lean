import Elenchus.Proofs.NegationNormalForm

/-! Skolemization keeps what a formula says, up to the meaning of the new symbols. -/

namespace Elenchus

universe u

namespace Signature

variable {sig sig' sig₁ sig₂ : Signature} {name : String} {s : Symbol}

/-- What a table knows stays known when it grows, and new Skolem symbols get names that it did not
know. -/
structure Grows (sig sig' : Signature) : Prop where
  find : ∀ n e, sig.find? n = some e → sig'.find? n = some e
  skolems : ∀ n ∈ sig.skolems, n ∈ sig'.skolems
  fresh : ∀ n ∈ sig'.skolems, n ∈ sig.skolems ∨ sig.find? n = none

/-- `s` is a Skolem symbol that the second table has and the first has not. -/
def AddsSkolem (sig sig' : Signature) (s : Symbol) : Prop :=
  s.name ∈ sig'.skolems ∧ sig.find? s.name = none ∧
    sig'.find? s.name = some ⟨.function, .int s.arity⟩

theorem Grows.refl (sig : Signature) : sig.Grows sig :=
  ⟨fun _ _ h => h, fun _ h => h, fun _ h => Or.inl h⟩

theorem Grows.contains (h : sig.Grows sig') (hn : sig.contains name = true) :
    sig'.contains name = true := by
  obtain ⟨e, he⟩ := Option.isSome_iff_exists.1 hn
  exact Option.isSome_iff_exists.2 ⟨e, h.find name e he⟩

theorem Grows.find_none (h : sig.Grows sig') (hn : sig'.find? name = none) :
    sig.find? name = none := by
  cases he : sig.find? name with
  | none => rfl
  | some e => simp [h.find name e he] at hn

theorem Grows.trans (h : sig.Grows sig₁) (h' : sig₁.Grows sig₂) : sig.Grows sig₂ :=
  ⟨fun n e hn => h'.find n e (h.find n e hn), fun n hn => h'.skolems n (h.skolems n hn),
    fun n hn => (h'.fresh n hn).elim (h.fresh n) fun hn => Or.inr (h.find_none hn)⟩

theorem not_addsSkolem (h : sig.contains s.name = true) : ¬ sig.AddsSkolem sig' s := by
  rintro ⟨-, hn, -⟩
  simp [contains, hn] at h

theorem AddsSkolem.mono_right (h : sig.AddsSkolem sig₁ s) (h' : sig₁.Grows sig₂) :
    sig.AddsSkolem sig₂ s :=
  ⟨h'.skolems _ h.1, h.2.1, h'.find _ _ h.2.2⟩

theorem AddsSkolem.mono_left (h : sig₁.AddsSkolem sig₂ s) (h' : sig.Grows sig₁) :
    sig.AddsSkolem sig₂ s :=
  ⟨h.1, h'.find_none h.2.1, h.2.2⟩

/-! ### Fresh Skolem symbols -/

theorem skolemName_injective : Function.Injective skolemName := by
  intro m n h
  have := congrArg String.toList h
  simp only [skolemName, String.toList_append, Nat.toList_repr, List.append_cancel_left_eq] at this
  exact toDigits_injective this

/-- The search for a free name fails only after a row of names that are all taken. -/
theorem nextSkolem_spec (sig : Signature) (tries n : Nat) :
    sig.contains (skolemName (sig.nextSkolem tries n)) = false ∨
      ∀ k ≤ tries, sig.contains (skolemName (n + k + 1)) = true := by
  induction tries generalizing n with
  | zero =>
    cases h : sig.contains (skolemName (n + 1)) with
    | false => exact Or.inl h
    | true => exact Or.inr fun k hk => by rw [Nat.le_zero.1 hk]; exact h
  | succ tries ih =>
    rw [nextSkolem]
    split
    · next h =>
      rcases ih (n + 1) with hf | ht
      · exact Or.inl hf
      · refine Or.inr fun k hk => ?_
        cases k with
        | zero => exact h
        | succ k =>
          have := ht k (by omega)
          rwa [show n + 1 + k + 1 = n + (k + 1) + 1 by omega] at this
    · next h => exact Or.inl (by simpa using h)

theorem mem_names_of_contains (h : sig.contains name = true) :
    name ∈ sig.symbols.map Prod.fst := by
  obtain ⟨e, he⟩ := Option.isSome_iff_exists.1 h
  obtain ⟨l₁, l₂, hl, _⟩ := List.lookup_eq_some_iff.1 he
  simp [hl]

/-- More names than the table has entries cannot all be taken. -/
theorem nextSkolem_free (sig : Signature) (n : Nat) :
    sig.find? (skolemName (sig.nextSkolem sig.symbols.length n)) = none := by
  rcases nextSkolem_spec sig sig.symbols.length n with h | h
  · simpa [contains] using h
  · have hn : ((List.range (sig.symbols.length + 1)).map
        fun k => skolemName (n + k + 1)).Nodup := by
      refine List.nodup_range.map fun a b hab => ?_
      have := skolemName_injective hab
      omega
    have hs : (List.range (sig.symbols.length + 1)).map (fun k => skolemName (n + k + 1)) ⊆
        sig.symbols.map Prod.fst := by
      intro x hx
      obtain ⟨k, hk, rfl⟩ := List.mem_map.1 hx
      exact mem_names_of_contains (h k (by simpa using Nat.lt_succ_iff.1 (List.mem_range.1 hk)))
    have := (hn.subperm hs).length_le
    simp at this

theorem freshSkolem_free (sig : Signature) (arity : Item) :
    sig.find? (sig.freshSkolem arity).1 = none :=
  nextSkolem_free sig _

theorem find?_append_new {e : SymbolEntry} (h : sig.find? name = none) {n : String} :
    (sig.symbols ++ [(name, e)]).lookup n = if n = name then some e else sig.find? n := by
  rw [List.lookup_append, lookup_cons_ite]
  by_cases hn : n = name
  · rw [if_pos hn, if_pos hn, hn]
    rw [find?] at h
    simp [h]
  · rw [if_neg hn, if_neg hn]
    simp [find?]

theorem freshSkolem_find? (sig : Signature) (arity : Item) (n : String) :
    (sig.freshSkolem arity).2.find? n =
      if n = (sig.freshSkolem arity).1 then some ⟨.function, arity⟩ else sig.find? n :=
  find?_append_new (freshSkolem_free sig arity)

theorem grows_freshSkolem (sig : Signature) (arity : Item) :
    sig.Grows (sig.freshSkolem arity).2 := by
  refine ⟨fun n e hn => ?_, fun n hn => List.mem_append_left _ hn, fun n hn => ?_⟩
  · have hne : n ≠ (sig.freshSkolem arity).1 := by
      rintro rfl
      simp [freshSkolem_free] at hn
    rw [freshSkolem_find?, if_neg hne, hn]
  · rcases List.mem_append.1 hn with hn | hn
    · exact Or.inl hn
    · exact Or.inr (List.mem_singleton.1 hn ▸ freshSkolem_free sig arity)

theorem addsSkolem_fresh (sig : Signature) (n : Nat) :
    sig.AddsSkolem (sig.freshSkolem (.int n)).2 ⟨(sig.freshSkolem (.int n)).1, n⟩ := by
  refine ⟨List.mem_append_right _ (by simp [freshSkolem]), freshSkolem_free sig (.int n), ?_⟩
  rw [freshSkolem_find?, if_pos rfl]

end Signature

/-! ### Structures -/

section
variable {D : Type u} {M N : Structure D} {v w : String → D}

/-- Values of variables as seen through a substitution. -/
def Structure.through (M : Structure D) (σ : Subst) (v : String → D) (x : String) : D :=
  (σ.value x).eval M.fn v

/-- The structure with another function for one symbol. -/
def Structure.withFunction (M : Structure D) (s : Symbol) (F : List D → D) : Structure D :=
  { M with fn := fun g ds => if g = s.name ∧ ds.length = s.arity then F ds else M.fn g ds }

theorem Structure.withFunction_expands {new : Symbol → Prop} {s : Symbol} (F : List D → D)
    (hs : new s) : (M.withFunction s F).Expands M new := by
  refine ⟨rfl, fun g ds hg => if_neg ?_⟩
  rintro ⟨rfl, hl⟩
  exact hg (hl ▸ hs)

/-- Variables take the values in a list, place by place. -/
def assign (scope : List String) (ds : List D) (d : D) (x : String) : D :=
  ((scope.zip ds).lookup x).getD d

theorem assign_map {scope : List String} (d : D) {x : String} (hx : x ∈ scope) :
    assign scope (scope.map v) d x = v x := by
  rw [assign]
  induction scope with
  | nil => simp at hx
  | cons y ys ih =>
    rw [List.map_cons, List.zip_cons_cons, lookup_cons_ite]
    by_cases hxy : x = y
    · simp [hxy]
    · rw [if_neg hxy]
      exact ih ((List.mem_cons.1 hx).resolve_left hxy)

end

/-! ### Scopes -/

namespace Formula

variable {scope : List String} {σ : Subst} {sig sig' sig₁ : Signature} {f g : Formula} {x : String}

/-- When a formula can be Skolemized below quantifiers of the variables in `scope`: its bound
variables are new, and the replacements made so far are terms over `scope` and known symbols. -/
structure Skolemizable (scope : List String) (σ : Subst) (f : Formula) (sig : Signature) :
    Prop where
  nodup : f.boundNames.Nodup
  unbound : ∀ x ∈ f.boundNames, x ∉ scope ∧ σ.value x = .var x
  inScope : ∀ x ∈ f.freeVars, ∀ y ∈ (σ.value x).vars, y ∈ scope
  known : ∀ a ∈ f.atoms, ∀ s ∈ a.symbols, sig.contains s.name = true
  knownValues : ∀ x ∈ f.freeVars, ∀ s ∈ (σ.value x).symbols, sig.contains s.name = true

theorem Skolemizable.left (h : Skolemizable scope σ (.and f g) sig) :
    Skolemizable scope σ f sig where
  nodup := (List.nodup_append.1 h.nodup).1
  unbound x hx := h.unbound x (List.mem_append_left _ hx)
  inScope x hx := h.inScope x (List.mem_append_left _ hx)
  known a ha := h.known a (List.mem_append_left _ ha)
  knownValues x hx := h.knownValues x (List.mem_append_left _ hx)

theorem Skolemizable.right (h : Skolemizable scope σ (.and f g) sig) (hs : sig.Grows sig') :
    Skolemizable scope σ g sig' where
  nodup := (List.nodup_append.1 h.nodup).2.1
  unbound x hx := h.unbound x (List.mem_append_right _ hx)
  inScope x hx := h.inScope x (List.mem_append_right _ hx)
  known a ha s hm := hs.contains (h.known a (List.mem_append_right _ ha) s hm)
  knownValues x hx s hm := hs.contains (h.knownValues x (List.mem_append_right _ hx) s hm)

theorem Skolemizable.of_or (h : Skolemizable scope σ (.or f g) sig) :
    Skolemizable scope σ (.and f g) sig :=
  ⟨h.nodup, h.unbound, h.inScope, h.known, h.knownValues⟩

theorem mem_freeVars_quantified {z : String} (hz : z ∈ f.freeVars) (hx : z ≠ x) :
    z ∈ f.freeVars.filter (· != x) :=
  List.mem_filter.2 ⟨hz, by simpa using hx⟩

theorem Skolemizable.all (h : Skolemizable scope σ (.all (.var x) f) sig) :
    Skolemizable (scope ++ [x]) σ f sig := by
  obtain ⟨hx, hnd⟩ := List.nodup_cons.1 h.nodup
  obtain ⟨-, hσx⟩ := h.unbound x (List.mem_cons_self ..)
  refine ⟨hnd, fun y hy => ?_, fun z hz y hy => ?_, h.known, fun z hz s hs => ?_⟩
  · obtain ⟨hys, hσy⟩ := h.unbound y (List.mem_cons_of_mem _ hy)
    have hyx : y ≠ x := fun he => hx (he ▸ hy)
    exact ⟨by simp [hys, hyx], hσy⟩
  · by_cases hzx : z = x
    · rw [hzx, hσx, Term.vars_var] at hy
      exact List.mem_append_right _ hy
    · exact List.mem_append_left _ (h.inScope z (mem_freeVars_quantified hz hzx) y hy)
  · by_cases hzx : z = x
    · simp [hzx, hσx, Term.symbols] at hs
    · exact h.knownValues z (mem_freeVars_quantified hz hzx) s hs

/-- The Skolem term for a quantifier below those of `scope`, and the table that knows it. -/
def skolemTerm (sig : Signature) (scope : List String) : Term :=
  .app (sig.freshSkolem (.int scope.length)).1 (scope.map .var)

theorem value_bind_skolem (h : Skolemizable scope σ (.ex (.var x) f) sig) (t : Term)
    {z : String} (hz : z ∈ f.freeVars ∨ z ∈ f.boundNames) :
    (σ.bind x t).value z = if z = x then t else σ.value z := by
  obtain ⟨hxs, -⟩ := h.unbound x (List.mem_cons_self ..)
  rw [Subst.value_bind]
  split
  · rfl
  · next hzx =>
    refine Subst.subst_single_eq_self ?_ t
    rcases hz with hz | hz
    · exact fun hm => hxs (h.inScope z (mem_freeVars_quantified hz hzx) x hm)
    · rw [(h.unbound z (List.mem_cons_of_mem _ hz)).2]
      simpa using Ne.symm hzx

theorem Skolemizable.ex (h : Skolemizable scope σ (.ex (.var x) f) sig) :
    Skolemizable scope (σ.bind x (skolemTerm sig scope)) f
      (sig.freshSkolem (.int scope.length)).2 := by
  have hgrows := sig.grows_freshSkolem (.int scope.length)
  obtain ⟨hx, hnd⟩ := List.nodup_cons.1 h.nodup
  refine ⟨hnd, fun y hy => ?_, fun z hz y hy => ?_,
    fun a ha s hs => hgrows.contains (h.known a ha s hs), fun z hz s hs => ?_⟩
  · have hyx : y ≠ x := fun he => hx (he ▸ hy)
    rw [value_bind_skolem h _ (Or.inr hy), if_neg hyx]
    exact h.unbound y (List.mem_cons_of_mem _ hy)
  · rw [value_bind_skolem h _ (Or.inl hz)] at hy
    split at hy
    · simpa [skolemTerm] using hy
    · next hzx => exact h.inScope z (mem_freeVars_quantified hz hzx) y hy
  · rw [value_bind_skolem h _ (Or.inl hz)] at hs
    split at hs
    · have : s.name = (sig.freshSkolem (.int scope.length)).1 := by
        simp only [skolemTerm, Term.symbols, Term.symbolsList_eq_flatMap, List.mem_cons,
          List.flatMap_map, List.mem_flatMap] at hs
        rcases hs with rfl | ⟨y, _, hs⟩
        · rfl
        · simp at hs
      rw [Signature.contains, this, Signature.freshSkolem_find?, if_pos rfl]
      rfl
    · next hzx => exact hgrows.contains (h.knownValues z (mem_freeVars_quantified hz hzx) s hs)

theorem skolemizeFrom_all :
    (Formula.all (.var x) f).skolemizeFrom (scope.map .var) σ sig =
      (.all (.var x) (f.skolemizeFrom ((scope ++ [x]).map .var) σ sig).1,
        (f.skolemizeFrom ((scope ++ [x]).map .var) σ sig).2) := by
  rw [List.map_append]
  rfl

theorem skolemizeFrom_ex :
    (Formula.ex (.var x) f).skolemizeFrom (scope.map .var) σ sig =
      f.skolemizeFrom (scope.map .var) (σ.bind x (skolemTerm sig scope))
        (sig.freshSkolem (.int scope.length)).2 := by
  have hterms : binderTerms (scope.map .var) = scope.map .var := by
    simp [binderTerms, List.filterMap_map, Binder.item]
  rw [skolemizeFrom, hterms, List.length_map]
  rfl

/-! ### What is left of a formula -/

/-- Negation normal form without existential quantifiers. -/
inductive IsUniversal : Formula → Prop
  | atomic (a : Atom) : IsUniversal (.atomic a)
  | negated (a : Atom) : IsUniversal (.not (.atomic a))
  | and {f g : Formula} (hf : IsUniversal f) (hg : IsUniversal g) : IsUniversal (.and f g)
  | or {f g : Formula} (hf : IsUniversal f) (hg : IsUniversal g) : IsUniversal (.or f g)
  | all {x : String} {f : Formula} (hf : IsUniversal f) : IsUniversal (.all (.var x) f)

structure Skolemized (scope : List String) (f : Formula) (sig : Signature) (g : Formula)
    (sig' : Signature) : Prop where
  grows : sig.Grows sig'
  isUniversal : g.IsUniversal
  boundNames : g.boundNames.Sublist f.boundNames
  freeVars : ∀ y ∈ g.freeVars, y ∈ scope
  known : ∀ a ∈ g.atoms, ∀ s ∈ a.symbols, sig'.contains s.name = true
  predicates : ∀ b ∈ g.atoms, ∃ a ∈ f.atoms, b.predicate = a.predicate

theorem Skolemizable.vars_subst {a : Atom} (h : Skolemizable scope σ f sig)
    (ha : a.vars ⊆ f.freeVars) : ∀ y ∈ (a.subst σ).vars, y ∈ scope := by
  intro y hy
  rw [Atom.subst_eq_inst, Atom.mem_vars_inst] at hy
  obtain ⟨x, hx, hy⟩ := hy
  exact h.inScope x (ha hx) y hy

theorem Skolemizable.symbols_subst {a : Atom} (h : Skolemizable scope σ f sig)
    (ha : a.vars ⊆ f.freeVars) (hm : a ∈ f.atoms) :
    ∀ s ∈ (a.subst σ).symbols, sig.contains s.name = true := by
  intro s hs
  rw [Atom.subst_eq_inst, Atom.mem_symbols_inst] at hs
  rcases hs with hs | ⟨x, hx, hs⟩
  · exact h.known a hm s hs
  · exact h.knownValues x (ha hx) s hs

theorem Skolemized.and {f' g' : Formula} (hf : Skolemized scope f sig f' sig₁)
    (hg : Skolemized scope g sig₁ g' sig') : Skolemized scope (.and f g) sig (.and f' g') sig' where
  grows := hf.grows.trans hg.grows
  isUniversal := .and hf.isUniversal hg.isUniversal
  boundNames := hf.boundNames.append hg.boundNames
  freeVars y hy := (List.mem_append.1 hy).elim (hf.freeVars y) (hg.freeVars y)
  known a ha s hs := (List.mem_append.1 ha).elim
    (fun ha => hg.grows.contains (hf.known a ha s hs)) fun ha => hg.known a ha s hs
  predicates b hb := by
    rcases List.mem_append.1 hb with hb | hb
    · obtain ⟨a, ha, he⟩ := hf.predicates b hb
      exact ⟨a, List.mem_append_left _ ha, he⟩
    · obtain ⟨a, ha, he⟩ := hg.predicates b hb
      exact ⟨a, List.mem_append_right _ ha, he⟩

theorem Skolemizable.skolemized (hf : f.IsNnf) (h : Skolemizable scope σ f sig) :
    Skolemized scope f sig (f.skolemizeFrom (scope.map .var) σ sig).1
      (f.skolemizeFrom (scope.map .var) σ sig).2 := by
  induction hf generalizing scope σ sig with
  | atomic a =>
    refine ⟨.refl sig, .atomic _, .refl _, h.vars_subst (List.Subset.refl _), fun b hb => ?_,
      fun b hb => ⟨a, List.mem_singleton_self a, by simp [List.mem_singleton.1 hb]⟩⟩
    rw [List.mem_singleton.1 hb]
    exact h.symbols_subst (List.Subset.refl _) (List.mem_singleton_self a)
  | negated a =>
    refine ⟨.refl sig, .negated _, .refl _, h.vars_subst (List.Subset.refl _), fun b hb => ?_,
      fun b hb => ⟨a, List.mem_singleton_self a, by simp [List.mem_singleton.1 hb]⟩⟩
    rw [List.mem_singleton.1 hb]
    exact h.symbols_subst (List.Subset.refl _) (List.mem_singleton_self a)
  | and _ _ ihf ihg =>
    have hf := ihf h.left
    exact hf.and (ihg (h.right hf.grows))
  | or _ _ ihf ihg =>
    have hf := ihf h.of_or.left
    have hg := ihg (h.of_or.right hf.grows)
    have hfg := hf.and hg
    exact ⟨hfg.grows, .or hf.isUniversal hg.isUniversal, hfg.boundNames, hfg.freeVars, hfg.known,
      hfg.predicates⟩
  | all _ ih =>
    have hf := ih h.all
    rw [skolemizeFrom_all]
    refine ⟨hf.grows, .all hf.isUniversal, hf.boundNames.cons_cons _, fun y hy => ?_, hf.known,
      hf.predicates⟩
    simp only [Formula.freeVars, List.mem_filter, bne_iff_ne] at hy
    simpa [hy.2] using hf.freeVars y hy.1
  | ex _ ih =>
    have hf := ih h.ex
    rw [skolemizeFrom_ex]
    exact ⟨(sig.grows_freshSkolem _).trans hf.grows, hf.isUniversal, hf.boundNames.cons _,
      hf.freeVars, hf.known, hf.predicates⟩

/-! ### Meaning -/

section
variable {D : Type u} {M N : Structure D} {v w : String → D}

/-- Below a universal quantifier the replacements do not see its variable. -/
theorem Skolemizable.holds_through_all (h : Skolemizable scope σ (.all (.var x) f) sig) (d : D) :
    f.Holds M (M.through σ (Function.update v x d)) ↔
      f.Holds M (Function.update (M.through σ v) x d) := by
  obtain ⟨hxs, hσx⟩ := h.unbound x (List.mem_cons_self ..)
  refine holds_congr fun z hz => ?_
  by_cases hzx : z = x
  · rw [hzx, Structure.through, hσx, Term.eval_var, Function.update_self, Function.update_self]
  · rw [Function.update_of_ne hzx]
    refine Term.eval_congr fun y hy => Function.update_of_ne ?_ _ _
    rintro rfl
    exact hxs (h.inScope z (mem_freeVars_quantified hz hzx) y hy)

/-- Below an existential quantifier the Skolem term stands for its variable. -/
theorem Skolemizable.holds_through_ex (h : Skolemizable scope σ (.ex (.var x) f) sig) :
    f.Holds M (M.through (σ.bind x (skolemTerm sig scope)) v) ↔
      f.Holds M (Function.update (M.through σ v) x ((skolemTerm sig scope).eval M.fn v)) := by
  refine holds_congr fun z hz => ?_
  rw [Structure.through, value_bind_skolem h _ (Or.inl hz)]
  by_cases hzx : z = x
  · rw [if_pos hzx, hzx, Function.update_self]
  · rw [if_neg hzx, Function.update_of_ne hzx, Structure.through]

/-- A Skolemized formula implies what it came from. -/
theorem Skolemizable.holds_of_skolemizeFrom (hf : f.IsNnf) (h : Skolemizable scope σ f sig)
    (hg : (f.skolemizeFrom (scope.map .var) σ sig).1.Holds M v) :
    f.Holds M (M.through σ v) := by
  induction hf generalizing scope σ sig v with
  | atomic a => exact Atom.holds_subst.1 hg
  | negated a => exact fun ha => hg (Atom.holds_subst.2 ha)
  | and hf _ ihf ihg =>
    exact ⟨ihf h.left hg.1, ihg (h.right (h.left.skolemized hf).grows) hg.2⟩
  | or hf _ ihf ihg =>
    have h := h.of_or
    exact hg.imp (ihf h.left) (ihg (h.right (h.left.skolemized hf).grows))
  | all _ ih =>
    rw [skolemizeFrom_all] at hg
    exact fun d => (h.holds_through_all d).1 (ih h.all (hg d))
  | ex _ ih =>
    rw [skolemizeFrom_ex] at hg
    exact ⟨_, h.holds_through_ex.1 (ih h.ex hg)⟩

/-- New symbols are none of those that the formula and the replacements have. -/
theorem Skolemizable.holds_expands (h : Skolemizable scope σ f sig)
    (hN : N.Expands M (sig.AddsSkolem sig')) :
    f.Holds N (N.through σ v) ↔ f.Holds M (M.through σ v) := by
  rw [Formula.holds_expands hN fun a ha s hs => Signature.not_addsSkolem (h.known a ha s hs)]
  refine holds_congr fun x hx => Term.eval_expands hN fun s hs => ?_
  exact Signature.not_addsSkolem (h.knownValues x hx s hs)

/-- A function for the Skolem symbol of an existential quantifier picks a witness from the values of
the universal variables around it. -/
theorem Skolemizable.exists_function [Nonempty D]
    (h : Skolemizable scope σ (.ex (.var x) f) sig) (M : Structure D) :
    ∃ N : Structure D,
      N.Expands M (sig.AddsSkolem (sig.freshSkolem (.int scope.length)).2) ∧
      ∀ v, (Formula.ex (.var x) f).Holds M (M.through σ v) →
        f.Holds N (N.through (σ.bind x (skolemTerm sig scope)) v) := by
  classical
  let e : D := Classical.arbitrary D
  let Witness (ds : List D) (d : D) : Prop :=
    f.Holds M (Function.update (M.through σ (assign scope ds e)) x d)
  let pick (ds : List D) : D := if hd : ∃ d, Witness ds d then hd.choose else e
  let s : Symbol := ⟨(sig.freshSkolem (.int scope.length)).1, scope.length⟩
  have hN : (M.withFunction s pick).Expands M
      (sig.AddsSkolem (sig.freshSkolem (.int scope.length)).2) :=
    Structure.withFunction_expands pick (sig.addsSkolem_fresh scope.length)
  refine ⟨M.withFunction s pick, hN, fun v hv => ?_⟩
  -- only the values of the variables in scope matter for the witness
  have hscope : ∀ d, Witness (scope.map v) d ↔
      f.Holds M (Function.update (M.through σ v) x d) := fun d => by
    refine holds_congr fun z hz => ?_
    by_cases hzx : z = x
    · rw [hzx, Function.update_self, Function.update_self]
    · rw [Function.update_of_ne hzx, Function.update_of_ne hzx]
      exact Term.eval_congr fun y hy =>
        assign_map e (h.inScope z (mem_freeVars_quantified hz hzx) y hy)
  have hpick : Witness (scope.map v) (pick (scope.map v)) := by
    have hex : ∃ d, Witness (scope.map v) d := hv.imp fun d hd => (hscope d).2 hd
    simp only [pick, dif_pos hex]
    exact hex.choose_spec
  have hterm : (skolemTerm sig scope).eval (M.withFunction s pick).fn v = pick (scope.map v) := by
    rw [skolemTerm, Term.eval_app, List.map_map]
    exact if_pos ⟨rfl, by simp [s]⟩
  have hknown : ∀ a ∈ f.atoms, ∀ s ∈ a.symbols, sig.contains s.name = true := h.known
  rw [h.holds_through_ex, hterm,
    Formula.holds_expands hN fun a ha s hs => Signature.not_addsSkolem (hknown a ha s hs)]
  refine (holds_congr fun z hz => ?_).1 ((hscope _).1 hpick)
  by_cases hzx : z = x
  · rw [hzx, Function.update_self, Function.update_self]
  · rw [Function.update_of_ne hzx, Function.update_of_ne hzx]
    exact (Term.eval_expands hN fun s hs => Signature.not_addsSkolem
      (h.knownValues z (mem_freeVars_quantified hz hzx) s hs)).symm

/-- Functions for the Skolem symbols of the right part leave the left part as it is. -/
theorem Skolemized.join {f' : Formula} {L : Structure D} (hf : Skolemized scope f sig f' sig₁)
    (hg : sig₁.Grows sig') (h : Skolemizable scope σ (.and f g) sig)
    (hN : N.Expands M (sig.AddsSkolem sig₁)) (hL : L.Expands N (sig₁.AddsSkolem sig')) :
    L.Expands M (sig.AddsSkolem sig') ∧ (∀ v, f'.Holds N v → f'.Holds L v) ∧
      ∀ v, g.Holds M (M.through σ v) → g.Holds N (N.through σ v) := by
  refine ⟨(hL.mono fun s hs => hs.mono_left hf.grows).trans (hN.mono fun s hs => hs.mono_right hg),
    fun v hv => ?_, fun v hv => ?_⟩
  · exact (Formula.holds_expands hL fun a ha s hs =>
      Signature.not_addsSkolem (hf.known a ha s hs)).2 hv
  · exact ((h.right (.refl sig)).holds_expands hN).2 hv

/-- Every structure has functions for the new symbols with which the Skolemized formula holds
wherever the formula does. -/
theorem Skolemizable.exists_expansion [Nonempty D] (hf : f.IsNnf)
    (h : Skolemizable scope σ f sig) (M : Structure D) :
    ∃ N : Structure D,
      N.Expands M (sig.AddsSkolem (f.skolemizeFrom (scope.map .var) σ sig).2) ∧
      ∀ v, f.Holds M (M.through σ v) →
        (f.skolemizeFrom (scope.map .var) σ sig).1.Holds N v := by
  induction hf generalizing scope σ sig M with
  | atomic a => exact ⟨M, .refl M _, fun v hv => Atom.holds_subst.2 hv⟩
  | negated a => exact ⟨M, .refl M _, fun v hv ha => hv (Atom.holds_subst.1 ha)⟩
  | and hf hg ihf ihg =>
    have sf := h.left.skolemized hf
    have sg := (h.right sf.grows).skolemized hg
    obtain ⟨N, hN, hf'⟩ := ihf h.left M
    obtain ⟨L, hL, hg'⟩ := ihg (h.right sf.grows) N
    obtain ⟨hLM, kf, kg⟩ := sf.join sg.grows h hN hL
    exact ⟨L, hLM, fun v hv => ⟨kf v (hf' v hv.1), hg' v (kg v hv.2)⟩⟩
  | or hf hg ihf ihg =>
    have h := h.of_or
    have sf := h.left.skolemized hf
    have sg := (h.right sf.grows).skolemized hg
    obtain ⟨N, hN, hf'⟩ := ihf h.left M
    obtain ⟨L, hL, hg'⟩ := ihg (h.right sf.grows) N
    obtain ⟨hLM, kf, kg⟩ := sf.join sg.grows h hN hL
    exact ⟨L, hLM, fun v hv => hv.imp (fun hv => kf v (hf' v hv)) fun hv => hg' v (kg v hv)⟩
  | all _ ih =>
    obtain ⟨N, hN, hf'⟩ := ih h.all M
    rw [skolemizeFrom_all]
    exact ⟨N, hN, fun v hv d => hf' _ ((h.holds_through_all d).2 (hv d))⟩
  | ex hf ih =>
    have sf := h.ex.skolemized hf
    obtain ⟨N, hN, hx⟩ := h.exists_function M
    obtain ⟨L, hL, hf'⟩ := ih h.ex N
    rw [skolemizeFrom_ex]
    refine ⟨L, ?_, fun v hv => hf' v (hx v hv)⟩
    exact (hL.mono fun s hs => hs.mono_left (sig.grows_freshSkolem _)).trans
      (hN.mono fun s hs => hs.mono_right sf.grows)

end

end Formula

end Elenchus

import Elenchus.Formula.Basic
import Elenchus.Proofs.Literals
import Elenchus.Proofs.Names
import Mathlib.Logic.Function.Basic

/-! Meaning of formulas and clauses. Free variables are read universally in both. -/

namespace Elenchus

universe u

structure Structure (D : Type u) where
  fn : String → List D → D
  rel : String → List D → Prop

variable {D : Type u} {M N : Structure D} {v w : String → D}

def Atom.Holds (M : Structure D) (v : String → D) (a : Atom) : Prop :=
  M.rel a.pred (a.args.map (Term.eval M.fn v))

def Literal.Holds (M : Structure D) (v : String → D) (l : Literal) : Prop :=
  l.positive = true ↔ l.atom.Holds M v

def Clause.Holds (M : Structure D) (v : String → D) (c : Clause) : Prop :=
  ∃ l ∈ c.literals, l.Holds M v

/-- A binder that is no variable binds nothing, and a stray item never holds. -/
def Formula.Holds (M : Structure D) : Formula → (String → D) → Prop
  | .atomic a, v => a.Holds M v
  | .not f, v => ¬ f.Holds M v
  | .and f g, v => f.Holds M v ∧ g.Holds M v
  | .or f g, v => f.Holds M v ∨ g.Holds M v
  | .implies f g, v => f.Holds M v → g.Holds M v
  | .iff f g, v => f.Holds M v ↔ g.Holds M v
  | .all (.var x) f, v => ∀ d, f.Holds M (Function.update v x d)
  | .ex (.var x) f, v => ∃ d, f.Holds M (Function.update v x d)
  | .all (.other _) f, v | .ex (.other _) f, v => f.Holds M v
  | .stray _, _ => False

/-- The universal closure of a clause is true. -/
def Structure.Satisfies (M : Structure D) (c : Clause) : Prop := ∀ v, c.Holds M v

/-- The universal closure of a formula is true. -/
def Structure.Models (M : Structure D) (f : Formula) : Prop := ∀ v, f.Holds M v

/-- `M` gives the symbols a meaning like `N` does, apart from those in `new`. -/
structure Structure.Expands (M N : Structure D) (new : Symbol → Prop) : Prop where
  rel_eq : M.rel = N.rel
  fn_eq : ∀ g ds, ¬ new ⟨g, ds.length⟩ → M.fn g ds = N.fn g ds

theorem Structure.Expands.refl (M : Structure D) (new : Symbol → Prop) : M.Expands M new :=
  ⟨rfl, fun _ _ _ => rfl⟩

theorem Structure.Expands.mono {new new' : Symbol → Prop} (h : M.Expands N new)
    (hs : ∀ s, new s → new' s) : M.Expands N new' :=
  ⟨h.rel_eq, fun g ds hg => h.fn_eq g ds fun hn => hg (hs _ hn)⟩

theorem Structure.Expands.trans {L : Structure D} {new : Symbol → Prop} (h : L.Expands M new)
    (h' : M.Expands N new) : L.Expands N new :=
  ⟨h.rel_eq.trans h'.rel_eq, fun g ds hg => (h.fn_eq g ds hg).trans (h'.fn_eq g ds hg)⟩

/-! ### Literals and clauses -/

section
variable {a : Atom} {l : Literal} {c d : Clause} {σ : Subst} {θ : String → Term}
  {new : Symbol → Prop}

theorem Literal.holds_negate : l.negate.Holds M v ↔ ¬ l.Holds M v := by
  cases h : l.positive <;> simp [Literal.Holds, Literal.negate, h]

theorem Atom.holds_congr (h : ∀ x ∈ a.vars, v x = w x) : a.Holds M v ↔ a.Holds M w := by
  have hargs : a.args.map (Term.eval M.fn v) = a.args.map (Term.eval M.fn w) := by
    refine List.map_congr_left fun t ht => Term.eval_congr fun x hx => h x ?_
    rw [Atom.vars, Term.varsList_eq_flatMap]
    exact List.mem_flatMap.2 ⟨t, ht, hx⟩
  rw [Atom.Holds, Atom.Holds, hargs]

theorem Atom.holds_inst : (a.inst θ).Holds M v ↔ a.Holds M fun x => (θ x).eval M.fn v := by
  have hargs : (a.inst θ).args.map (Term.eval M.fn v) =
      a.args.map (Term.eval M.fn fun x => (θ x).eval M.fn v) := by
    simp [Atom.inst, Function.comp_def, Term.eval_inst]
  rw [Atom.Holds, Atom.Holds, hargs]
  rfl

theorem Atom.holds_subst :
    (a.subst σ).Holds M v ↔ a.Holds M fun x => (σ.value x).eval M.fn v := by
  rw [Atom.subst_eq_inst, Atom.holds_inst]

theorem Literal.holds_inst : (l.inst θ).Holds M v ↔ l.Holds M fun x => (θ x).eval M.fn v :=
  iff_congr Iff.rfl Atom.holds_inst

theorem Literal.holds_subst :
    (l.subst σ).Holds M v ↔ l.Holds M fun x => (σ.value x).eval M.fn v :=
  iff_congr Iff.rfl Atom.holds_subst

theorem Structure.Satisfies.ne_nil [Nonempty D] (h : M.Satisfies c) : c.literals ≠ [] := by
  intro hempty
  obtain ⟨l, hl, -⟩ := h fun _ => Classical.arbitrary D
  rw [hempty] at hl
  cases hl

theorem Structure.Satisfies.of_covers (hc : M.Satisfies c) (h : c.Covers d) : M.Satisfies d := by
  obtain ⟨-, θ, hθ⟩ := h
  intro v
  obtain ⟨l, hl, hv⟩ := hc fun x => (θ x).eval M.fn v
  exact ⟨l.inst θ, hθ l hl, Literal.holds_inst.2 hv⟩

theorem Structure.Satisfies.of_alike (hc : M.Satisfies c) (h : c.alike d = true) : M.Satisfies d :=
  hc.of_covers (.of_alike h)

/-- The value of a term hangs on the meaning of its own symbols only. -/
theorem Term.eval_expands (h : M.Expands N new) {t : Term} (ht : ∀ s ∈ t.symbols, ¬ new s) :
    t.eval M.fn v = t.eval N.fn v := by
  induction t with
  | var x => rfl
  | app f ts ih =>
    simp only [Term.symbols, Term.symbolsList_eq_flatMap, List.mem_cons, List.mem_flatMap] at ht
    have hargs : ts.map (Term.eval M.fn v) = ts.map (Term.eval N.fn v) :=
      List.map_congr_left fun t hm => ih t hm fun s hs => ht s (Or.inr ⟨t, hm, hs⟩)
    rw [Term.eval_app, Term.eval_app, hargs]
    exact h.fn_eq f _ (by simpa using ht ⟨f, ts.length⟩ (Or.inl rfl))

theorem Atom.holds_expands (h : M.Expands N new) (ha : ∀ s ∈ a.symbols, ¬ new s) :
    a.Holds M v ↔ a.Holds N v := by
  rw [Atom.symbols, Term.symbolsList_eq_flatMap] at ha
  have hargs : a.args.map (Term.eval M.fn v) = a.args.map (Term.eval N.fn v) :=
    List.map_congr_left fun t ht => Term.eval_expands h fun s hs =>
      ha s (List.mem_flatMap.2 ⟨t, ht, hs⟩)
  rw [Atom.Holds, Atom.Holds, hargs, h.rel_eq]

theorem Structure.Satisfies.of_expands (hc : N.Satisfies c) (h : M.Expands N new)
    (hs : ∀ s ∈ c.symbols, ¬ new s) : M.Satisfies c := by
  intro v
  obtain ⟨l, hl, hv⟩ := hc v
  refine ⟨l, hl, (iff_congr Iff.rfl (Atom.holds_expands h fun s hm => hs s ?_)).2 hv⟩
  exact List.mem_flatMap.2 ⟨l, hl, hm⟩

end

/-! ### Formulas -/

namespace Formula

variable {f g : Formula} {x : String} {new : Symbol → Prop}

theorem update_congr {P : String → Prop} (h : ∀ y, P y → y ≠ x → v y = w y) (d : D) :
    ∀ y, P y → Function.update v x d y = Function.update w x d y := by
  intro y hy
  by_cases hx : y = x
  · simp [hx]
  · simp [hx, h y hy hx]

theorem holds_congr (h : ∀ x ∈ f.freeVars, v x = w x) : f.Holds M v ↔ f.Holds M w := by
  induction f generalizing v w with
  | atomic a => exact Atom.holds_congr h
  | not f ih => exact not_congr (ih h)
  | and f g ihf ihg =>
    simp only [freeVars, List.mem_append] at h
    exact and_congr (ihf fun x hx => h x (Or.inl hx)) (ihg fun x hx => h x (Or.inr hx))
  | or f g ihf ihg =>
    simp only [freeVars, List.mem_append] at h
    exact or_congr (ihf fun x hx => h x (Or.inl hx)) (ihg fun x hx => h x (Or.inr hx))
  | implies f g ihf ihg =>
    simp only [freeVars, List.mem_append] at h
    exact imp_congr (ihf fun x hx => h x (Or.inl hx)) (ihg fun x hx => h x (Or.inr hx))
  | iff f g ihf ihg =>
    simp only [freeVars, List.mem_append] at h
    exact iff_congr (ihf fun x hx => h x (Or.inl hx)) (ihg fun x hx => h x (Or.inr hx))
  | all b f ih =>
    cases b with
    | other i => exact ih h
    | var x =>
      simp only [freeVars, List.mem_filter, bne_iff_ne] at h
      exact forall_congr' fun d => ih (update_congr (fun y hy hx => h y ⟨hy, hx⟩) d)
  | ex b f ih =>
    cases b with
    | other i => exact ih h
    | var x =>
      simp only [freeVars, List.mem_filter, bne_iff_ne] at h
      exact exists_congr fun d => ih (update_congr (fun y hy hx => h y ⟨hy, hx⟩) d)
  | stray i => exact Iff.rfl

/-- A formula is true alike in structures that agree on its atoms. -/
theorem holds_congr_atoms (h : ∀ a ∈ f.atoms, ∀ v, a.Holds M v ↔ a.Holds N v) :
    f.Holds M v ↔ f.Holds N v := by
  induction f generalizing v with
  | atomic a => exact h a (by simp [atoms]) v
  | not f ih => exact not_congr (ih h)
  | and f g ihf ihg =>
    simp only [atoms, List.mem_append] at h
    exact and_congr (ihf fun a ha => h a (Or.inl ha)) (ihg fun a ha => h a (Or.inr ha))
  | or f g ihf ihg =>
    simp only [atoms, List.mem_append] at h
    exact or_congr (ihf fun a ha => h a (Or.inl ha)) (ihg fun a ha => h a (Or.inr ha))
  | implies f g ihf ihg =>
    simp only [atoms, List.mem_append] at h
    exact imp_congr (ihf fun a ha => h a (Or.inl ha)) (ihg fun a ha => h a (Or.inr ha))
  | iff f g ihf ihg =>
    simp only [atoms, List.mem_append] at h
    exact iff_congr (ihf fun a ha => h a (Or.inl ha)) (ihg fun a ha => h a (Or.inr ha))
  | all b f ih =>
    cases b with
    | other i => exact ih h
    | var x => exact forall_congr' fun d => ih h
  | ex b f ih =>
    cases b with
    | other i => exact ih h
    | var x => exact exists_congr fun d => ih h
  | stray i => exact Iff.rfl

theorem holds_expands (h : M.Expands N new) (hf : ∀ a ∈ f.atoms, ∀ s ∈ a.symbols, ¬ new s) :
    f.Holds M v ↔ f.Holds N v :=
  holds_congr_atoms fun a ha _ => Atom.holds_expands h (hf a ha)

theorem models_expands (h : M.Expands N new) (hf : ∀ a ∈ f.atoms, ∀ s ∈ a.symbols, ¬ new s) :
    M.Models f ↔ N.Models f :=
  forall_congr' fun _ => holds_expands h hf

/-! ### Universal closure -/

theorem freeVars_subset (f : Formula) : f.freeVars ⊆ f.atoms.flatMap Atom.vars := by
  induction f with
  | atomic a => simp [freeVars, atoms]
  | not f ih => exact ih
  | and f g ihf ihg | or f g ihf ihg | implies f g ihf ihg | iff f g ihf ihg =>
    simp only [freeVars, atoms, List.flatMap_append]
    exact List.append_subset.2 ⟨List.Subset.trans ihf (List.subset_append_left _ _),
      List.Subset.trans ihg (List.subset_append_right _ _)⟩
  | all b f ih | ex b f ih =>
    cases b with
    | other i => exact ih
    | var x => exact fun y hy => ih (List.mem_filter.1 hy).1
  | stray i => simp [freeVars]

theorem mem_freeVarsInOrder : x ∈ f.freeVarsInOrder ↔ x ∈ f.freeVars := by
  simp only [freeVarsInOrder, List.mem_filter, List.mem_eraseDups, List.contains_iff_mem]
  exact ⟨fun h => h.2, fun h => ⟨freeVars_subset f h, h⟩⟩

theorem holds_foldr_all (xs : List String) :
    (xs.foldr (fun x g => .all (.var x) g) f).Holds M v ↔
      ∀ w, (∀ x, x ∉ xs → w x = v x) → f.Holds M w := by
  induction xs generalizing v with
  | nil =>
    refine ⟨fun h w hw => ?_, fun h => h v fun _ _ => rfl⟩
    exact (funext fun x => hw x (by simp) : w = v) ▸ h
  | cons x xs ih =>
    simp only [List.foldr_cons, Holds, ih]
    constructor
    · intro h w hw
      refine h (w x) w fun y hy => ?_
      by_cases hx : y = x
      · simp [hx]
      · simp [hx, hw y (by simp [hx, hy])]
    · intro h d w hw
      refine h w fun y hy => ?_
      simp only [List.mem_cons, not_or] at hy
      rw [hw y hy.2, Function.update_of_ne hy.1]

theorem holds_closure : f.closure.Holds M v ↔ M.Models f := by
  classical
  rw [closure, holds_foldr_all]
  refine ⟨fun h w => ?_, fun h w _ => h w⟩
  have := h (fun x => if x ∈ f.freeVarsInOrder then w x else v x) fun x hx => if_neg hx
  refine (holds_congr fun x hx => ?_).1 this
  exact if_pos (mem_freeVarsInOrder.2 hx)

theorem models_closure [Nonempty D] : M.Models f.closure ↔ M.Models f :=
  ⟨fun h => holds_closure.1 (h fun _ => Classical.arbitrary D), fun h _ => holds_closure.2 h⟩

/-! ### Existential closure -/

/-- Quantifies existentially over the variables, the first one outermost. -/
def existsOver (xs : List String) (f : Formula) : Formula :=
  xs.foldr (fun x g => .ex (.var x) g) f

theorem holds_existsOver (xs : List String) :
    (f.existsOver xs).Holds M v ↔ ∃ w, (∀ x, x ∉ xs → w x = v x) ∧ f.Holds M w := by
  induction xs generalizing v with
  | nil =>
    refine ⟨fun h => ⟨v, fun _ _ => rfl, h⟩, fun ⟨w, hw, h⟩ => ?_⟩
    exact (funext fun x => hw x (by simp) : w = v) ▸ h
  | cons x xs ih =>
    have hcons : (f.existsOver (x :: xs)).Holds M v ↔
        ∃ d, (f.existsOver xs).Holds M (Function.update v x d) := Iff.rfl
    rw [hcons]
    constructor
    · rintro ⟨d, hd⟩
      obtain ⟨w, hw, h⟩ := ih.1 hd
      refine ⟨w, fun y hy => ?_, h⟩
      simp only [List.mem_cons, not_or] at hy
      rw [hw y hy.2, Function.update_of_ne hy.1]
    · rintro ⟨w, hw, h⟩
      refine ⟨w x, ih.2 ⟨w, fun y hy => ?_, h⟩⟩
      by_cases hx : y = x
      · simp [hx]
      · simp [hx, hw y (by simp [hx, hy])]

/-- If all free variables are quantified over, one valuation is as good as another. -/
theorem models_existsOver {xs : List String} (hf : ∀ x ∈ f.freeVars, x ∈ xs) (h : f.Holds M w) :
    M.Models (f.existsOver xs) := by
  classical
  intro v
  refine (holds_existsOver xs).2
    ⟨fun x => if x ∈ xs then w x else v x, fun x hx => if_neg hx, ?_⟩
  refine (holds_congr fun x hx => ?_).1 h
  exact (if_pos (hf x hx)).symm

/-! ### Instances -/

/-- A variable for a quantifier that the terms below it do not have. -/
def newVar (θ : String → Term) (f : Formula) : String :=
  longName (f.freeVars.flatMap fun z => (θ z).vars)

/-- The formula with terms in place of its free variables. Every quantifier takes a new variable, so
that it captures none of those in the terms. -/
def inst : (String → Term) → Formula → Formula
  | θ, .atomic a => .atomic (a.inst θ)
  | θ, .not f => .not (f.inst θ)
  | θ, .and f g => .and (f.inst θ) (g.inst θ)
  | θ, .or f g => .or (f.inst θ) (g.inst θ)
  | θ, .implies f g => .implies (f.inst θ) (g.inst θ)
  | θ, .iff f g => .iff (f.inst θ) (g.inst θ)
  | θ, .all (.var x) f =>
    .all (.var (newVar θ f)) (f.inst (Function.update θ x (.var (newVar θ f))))
  | θ, .ex (.var x) f =>
    .ex (.var (newVar θ f)) (f.inst (Function.update θ x (.var (newVar θ f))))
  | θ, .all b f => .all b (f.inst θ)
  | θ, .ex b f => .ex b (f.inst θ)
  | _, .stray i => .stray i

/-- The new variable stands for the old one, and has nothing to do with the others. -/
theorem eval_update_newVar {θ : String → Term} (d : D) {z : String} (hz : z ∈ f.freeVars) :
    (Function.update θ x (.var (newVar θ f)) z).eval M.fn (Function.update v (newVar θ f) d) =
      Function.update (fun x => (θ x).eval M.fn v) x d z := by
  by_cases hx : z = x
  · subst hx
    simp
  · rw [Function.update_of_ne hx, Function.update_of_ne hx]
    refine Term.eval_congr fun y hy => Function.update_of_ne ?_ _ _
    rintro rfl
    exact longName_not_mem _ (List.mem_flatMap.2 ⟨z, hz, hy⟩)

theorem holds_inst {θ : String → Term} :
    (f.inst θ).Holds M v ↔ f.Holds M fun x => (θ x).eval M.fn v := by
  induction f generalizing θ v with
  | atomic a => exact Atom.holds_inst
  | not f ih => exact not_congr ih
  | and f g ihf ihg => exact and_congr ihf ihg
  | or f g ihf ihg => exact or_congr ihf ihg
  | implies f g ihf ihg => exact imp_congr ihf ihg
  | iff f g ihf ihg => exact iff_congr ihf ihg
  | all b f ih =>
    cases b with
    | other i => exact ih
    | var x =>
      exact forall_congr' fun d => ih.trans (holds_congr fun z hz => eval_update_newVar d hz)
  | ex b f ih =>
    cases b with
    | other i => exact ih
    | var x =>
      exact exists_congr fun d => ih.trans (holds_congr fun z hz => eval_update_newVar d hz)
  | stray i => exact Iff.rfl

end Formula

end Elenchus

import Elenchus.NormalForm.Skolem
import Elenchus.Proofs.Names
import Elenchus.Proofs.Structures
import Elenchus.Signature.Check

/-!
Negation normal forms with variables of their own for all quantifiers. Both passes keep the meaning
of a formula; the second needs only that its names are new to the formula at hand.
-/

namespace Elenchus

universe u

variable {D : Type u} {M : Structure D} {v w : String → D} {f g : Formula}

namespace Formula

/-- Nothing stray, and every quantifier binds a variable. -/
def Proper : Formula → Prop
  | .atomic _ => True
  | .not f => f.Proper
  | .and f g | .or f g | .implies f g | .iff f g => f.Proper ∧ g.Proper
  | .all (.var _) f | .ex (.var _) f => f.Proper
  | .all (.other _) _ | .ex (.other _) _ | .stray _ => False

theorem proper_of_binderFault {path : List String} (h : f.binderFault path = none) : f.Proper := by
  induction f generalizing path with
  | atomic a => trivial
  | not f ih => exact ih h
  | and f g ihf ihg | or f g ihf ihg | implies f g ihf ihg | iff f g ihf ihg =>
    simp only [binderFault, Option.orElse_eq_none] at h
    exact ⟨ihf h.1, ihg h.2⟩
  | all b f ih | ex b f ih =>
    cases b with
    | other i => simp [binderFault] at h
    | var x =>
      simp only [binderFault] at h
      split at h
      · simp at h
      · exact ih h
  | stray i => simp [binderFault] at h

theorem Proper.closure (h : f.Proper) : f.closure.Proper := by
  rw [Formula.closure]
  induction f.freeVarsInOrder with
  | nil => exact h
  | cons x xs ih => exact ih

theorem atoms_closure (f : Formula) : f.closure.atoms = f.atoms := by
  rw [closure]
  induction f.freeVarsInOrder with
  | nil => rfl
  | cons x xs ih => exact ih

theorem freeVars_closure (f : Formula) : f.closure.freeVars = [] := by
  have key : ∀ xs : List String,
      (xs.foldr (fun x g => .all (.var x) g) f).freeVars = f.freeVars.filter (· ∉ xs) := by
    intro xs
    induction xs with
    | nil => simp
    | cons x xs ih =>
      rw [List.foldr_cons, freeVars, ih, List.filter_filter]
      refine List.filter_congr fun y _ => ?_
      by_cases hy : y = x <;> simp [hy]
  rw [closure, key, List.filter_eq_nil_iff]
  intro x hx
  simpa using mem_freeVarsInOrder.2 hx

/-! ### Negations -/

/-- No implications or equivalences anywhere, and negations on atoms only. -/
def IsNegationNormal (f : Formula) : Prop :=
  ∀ h ∈ f.subformulas, h.isConditional = false ∧ ∀ k, h = .not k → ∃ a, k = .atomic a

@[simp] theorem isNegationNormal_atomic (a : Atom) : IsNegationNormal (.atomic a) := by
  simp [IsNegationNormal, subformulas, isConditional]

@[simp] theorem isNegationNormal_negated (a : Atom) : IsNegationNormal (.not (.atomic a)) := by
  simp [IsNegationNormal, subformulas, isConditional]

theorem IsNegationNormal.exists_of_not (h : IsNegationNormal (.not f)) : ∃ a, f = .atomic a :=
  (h _ List.mem_cons_self).2 f rfl

theorem IsNegationNormal.not_isConditional (h : f.IsNegationNormal) : f.isConditional = false := by
  cases f <;> exact (h _ List.mem_cons_self).1

@[simp] theorem isNegationNormal_and :
    (Formula.and f g).IsNegationNormal ↔ f.IsNegationNormal ∧ g.IsNegationNormal := by
  rw [IsNegationNormal, subformulas, List.forall_mem_cons, List.forall_mem_append]
  exact and_iff_right ⟨rfl, by rintro _ ⟨⟩⟩

@[simp] theorem isNegationNormal_or :
    (Formula.or f g).IsNegationNormal ↔ f.IsNegationNormal ∧ g.IsNegationNormal := by
  rw [IsNegationNormal, subformulas, List.forall_mem_cons, List.forall_mem_append]
  exact and_iff_right ⟨rfl, by rintro _ ⟨⟩⟩

@[simp] theorem isNegationNormal_all {b : Binder} :
    (Formula.all b f).IsNegationNormal ↔ f.IsNegationNormal := by
  rw [IsNegationNormal, subformulas, List.forall_mem_cons]
  exact and_iff_right ⟨rfl, by rintro _ ⟨⟩⟩

@[simp] theorem isNegationNormal_ex {b : Binder} :
    (Formula.ex b f).IsNegationNormal ↔ f.IsNegationNormal := by
  rw [IsNegationNormal, subformulas, List.forall_mem_cons]
  exact and_iff_right ⟨rfl, by rintro _ ⟨⟩⟩

theorem isNegationNormal_pushNegations (hf : f.firstStray = none) (n : Bool) :
    (f.pushNegations n).IsNegationNormal := by
  induction f generalizing n with
  | atomic a => cases n <;> simp [pushNegations]
  | not f ih => cases n <;> exact ih hf _
  | and f g ihf ihg | or f g ihf ihg | implies f g ihf ihg | iff f g ihf ihg =>
    obtain ⟨hf, hg⟩ := (Option.orElse_eq_none _ _).1 hf
    cases n <;> simp [pushNegations, ihf hf, ihg hg]
  | all b f ih | ex b f ih => cases n <;> simp [pushNegations, ih hf]
  | stray i => cases hf

theorem Proper.firstStray (h : f.Proper) : f.firstStray = none := by
  induction f with
  | atomic a => rfl
  | not f ih => exact ih h
  | and f g ihf ihg | or f g ihf ihg | implies f g ihf ihg | iff f g ihf ihg =>
    simp [Formula.firstStray, ihf h.1, ihg h.2]
  | all b f ih | ex b f ih =>
    cases b with
    | other i => exact h.elim
    | var x => exact ih h
  | stray i => exact h.elim

theorem Proper.pushNegations (h : f.Proper) (n : Bool) : (f.pushNegations n).Proper := by
  induction f generalizing n with
  | atomic a => cases n <;> trivial
  | not f ih => cases n <;> exact ih h _
  | and f g ihf ihg | or f g ihf ihg | implies f g ihf ihg | iff f g ihf ihg =>
    cases n <;> simp [Formula.pushNegations, Proper, ihf h.1, ihg h.2]
  | all b f ih | ex b f ih =>
    cases b with
    | other i => exact h.elim
    | var x => cases n <;> exact ih h _
  | stray i => exact h.elim

/-- Negation normal form, with variables at all quantifiers. -/
structure IsNnf (f : Formula) : Prop where
  normal : f.IsNegationNormal
  proper : f.Proper

namespace IsNnf

theorem atomic (a : Atom) : IsNnf (.atomic a) := ⟨isNegationNormal_atomic a, trivial⟩

theorem negated (a : Atom) : IsNnf (.not (.atomic a)) := ⟨isNegationNormal_negated a, trivial⟩

theorem and (hf : f.IsNnf) (hg : g.IsNnf) : IsNnf (.and f g) :=
  ⟨isNegationNormal_and.2 ⟨hf.normal, hg.normal⟩, hf.proper, hg.proper⟩

theorem or (hf : f.IsNnf) (hg : g.IsNnf) : IsNnf (.or f g) :=
  ⟨isNegationNormal_or.2 ⟨hf.normal, hg.normal⟩, hf.proper, hg.proper⟩

theorem all {x : String} (hf : f.IsNnf) : IsNnf (.all (.var x) f) :=
  ⟨isNegationNormal_all.2 hf.normal, hf.proper⟩

theorem ex {x : String} (hf : f.IsNnf) : IsNnf (.ex (.var x) f) :=
  ⟨isNegationNormal_ex.2 hf.normal, hf.proper⟩

@[induction_eliminator]
theorem induction {P : (f : Formula) → f.IsNnf → Prop} (atomic : ∀ a, P _ (.atomic a))
    (negated : ∀ a, P _ (.negated a))
    (and : ∀ {f g} (hf : f.IsNnf) (hg : g.IsNnf), P f hf → P g hg → P _ (hf.and hg))
    (or : ∀ {f g} (hf : f.IsNnf) (hg : g.IsNnf), P f hf → P g hg → P _ (hf.or hg))
    (all : ∀ {x f} (hf : f.IsNnf), P f hf → P _ (hf.all (x := x)))
    (ex : ∀ {x f} (hf : f.IsNnf), P f hf → P _ (hf.ex (x := x))) (h : f.IsNnf) : P f h := by
  induction f with
  | atomic a => exact atomic a
  | not f _ =>
    obtain ⟨a, rfl⟩ := h.normal.exists_of_not
    exact negated a
  | and f g ihf ihg =>
    obtain ⟨hf, hg⟩ := isNegationNormal_and.1 h.normal
    exact and ⟨hf, h.proper.1⟩ ⟨hg, h.proper.2⟩ (ihf _) (ihg _)
  | or f g ihf ihg =>
    obtain ⟨hf, hg⟩ := isNegationNormal_or.1 h.normal
    exact or ⟨hf, h.proper.1⟩ ⟨hg, h.proper.2⟩ (ihf _) (ihg _)
  | implies f g _ _ | iff f g _ _ => cases h.normal.not_isConditional
  | all b f ih =>
    cases b with
    | other i => exact h.proper.elim
    | var x => exact all ⟨isNegationNormal_all.1 h.normal, h.proper⟩ (ih _)
  | ex b f ih =>
    cases b with
    | other i => exact h.proper.elim
    | var x => exact ex ⟨isNegationNormal_ex.1 h.normal, h.proper⟩ (ih _)
  | stray i => exact h.proper.elim

end IsNnf

theorem Proper.isNnf_pushNegations (h : f.Proper) (n : Bool) : (f.pushNegations n).IsNnf :=
  ⟨isNegationNormal_pushNegations h.firstStray n, h.pushNegations n⟩

/-- A formula whose negations are pushed inwards says what it did, or the opposite if `n`. -/
theorem holds_pushNegations (f : Formula) (n : Bool) :
    (f.pushNegations n).Holds M v ↔ (n = false ↔ f.Holds M v) := by
  induction f generalizing n v with
  | atomic a => cases n <;> simp [pushNegations, Holds]
  | not f ih => cases n <;> simp [pushNegations, Holds, ih]
  | and f g ihf ihg =>
    cases n <;> simp [pushNegations, Holds, ihf, ihg]
    tauto
  | or f g ihf ihg => cases n <;> simp [pushNegations, Holds, ihf, ihg]
  | implies f g ihf ihg =>
    cases n <;> simp [pushNegations, Holds, ihf, ihg]
    tauto
  | iff f g ihf ihg => cases n <;> simp [pushNegations, Holds, ihf, ihg] <;> tauto
  | all b f ih => cases b <;> cases n <;> simp [pushNegations, Holds, ih]
  | ex b f ih => cases b <;> cases n <;> simp [pushNegations, Holds, ih]
  | stray i => cases n <;> simp [pushNegations, Holds]

theorem holds_nnf : f.nnf.Holds M v ↔ f.Holds M v := by
  simp [nnf, holds_pushNegations]

theorem atoms_pushNegations (f : Formula) (n : Bool) : (f.pushNegations n).atoms ⊆ f.atoms := by
  induction f generalizing n with
  | atomic a => cases n <;> simp [pushNegations, atoms]
  | not f ih => cases n <;> exact ih _
  | and f g ihf ihg | or f g ihf ihg | implies f g ihf ihg | iff f g ihf ihg =>
    cases n <;> grind [pushNegations, atoms]
  | all b f ih | ex b f ih => cases n <;> exact ih _
  | stray i => cases n <;> simp [pushNegations, atoms]

theorem freeVars_pushNegations (f : Formula) (n : Bool) :
    (f.pushNegations n).freeVars ⊆ f.freeVars := by
  induction f generalizing n with
  | atomic a => cases n <;> simp [pushNegations, freeVars]
  | not f ih => cases n <;> exact ih _
  | and f g ihf ihg | or f g ihf ihg | implies f g ihf ihg | iff f g ihf ihg =>
    cases n <;> grind [pushNegations, freeVars]
  | all b f ih | ex b f ih => cases b <;> cases n <;> grind [pushNegations, freeVars]
  | stray i => cases n <;> simp [pushNegations, freeVars]

/-! ### Variables of their own for all quantifiers -/

/-- The name that a renaming gives to a variable. -/
def renamed (ρ : List (String × String)) (x : String) : String := (ρ.lookup x).getD x

theorem renamed_cons (ρ : List (String × String)) (x y z : String) :
    renamed ((x, y) :: ρ) z = if z = x then y else renamed ρ z := by
  rw [renamed, lookup_cons_ite]
  split <;> rfl

theorem rename_eq_inst (ρ : List (String × String)) (t : Term) :
    t.rename ρ = t.inst fun x => .var (renamed ρ x) := by
  have list : ∀ ts : List Term, Term.renameList ρ ts = ts.map (Term.rename ρ) := by
    intro ts
    induction ts with
    | nil => rfl
    | cons t ts ih => rw [Term.renameList, ih, List.map_cons]
  induction t with
  | var x => rfl
  | app g ts ih => rw [Term.rename, list, Term.inst_app, List.map_congr_left ih]

/-- A name for bound variables with a number after `lo` and up to `hi`. -/
def Numbered (lo hi : Nat) (x : String) : Prop :=
  ∃ hint n, lo < n ∧ n ≤ hi ∧ x = nameStem "x" hint ++ Nat.repr n

theorem Numbered.mono {lo lo' hi hi' : Nat} {x : String} (h : Numbered lo hi x) (hl : lo' ≤ lo)
    (hh : hi ≤ hi') : Numbered lo' hi' x := by
  obtain ⟨hint, n, h1, h2, he⟩ := h
  exact ⟨hint, n, by omega, by omega, he⟩

theorem Numbered.ne {a b c d : Nat} {x y : String} (hx : Numbered a b x) (hy : Numbered c d y)
    (h : b ≤ c) : x ≠ y := by
  obtain ⟨s, m, _, _, rfl⟩ := hx
  obtain ⟨t, n, _, _, rfl⟩ := hy
  intro he
  have := standardName_inj he
  omega

theorem Numbered.isStandard {lo hi : Nat} {x : String} (h : Numbered lo hi x) : IsStandard x := by
  obtain ⟨hint, n, _, _, he⟩ := h
  exact ⟨hint, n, he⟩

theorem numbered_fresh (sig : Signature) (hint : String) :
    Numbered sig.variableCounter (sig.variableCounter + 1) (sig.freshVariable hint).1 :=
  ⟨hint, _, Nat.lt_succ_self _, Nat.le_refl _, rfl⟩

/-- What the pass leaves of a formula, apart from its meaning. -/
structure Standardized (ρ : List (String × String)) (f : Formula) (sig : Signature) (g : Formula)
    (sig' : Signature) : Prop where
  signature : ∃ k, sig.variableCounter ≤ k ∧ sig' = { sig with variableCounter := k }
  isNnf : g.IsNnf
  nodup : g.boundNames.Nodup
  numbered : ∀ x ∈ g.boundNames, Numbered sig.variableCounter sig'.variableCounter x
  freeVars : ∀ y ∈ g.freeVars, ∃ x ∈ f.freeVars, y = renamed ρ x
  atoms : ∀ b ∈ g.atoms, ∃ a ∈ f.atoms,
    b.predicate = a.predicate ∧ ∀ s ∈ b.symbols, s ∈ a.symbols

section
variable {ρ : List (String × String)} {sig sig₁ sig₂ : Signature} {f' g' : Formula} {x : String}

theorem Standardized.counter_le (h : Standardized ρ f sig f' sig₁) :
    sig.variableCounter ≤ sig₁.variableCounter := by
  obtain ⟨k, hk, rfl⟩ := h.signature
  exact hk

theorem standardized_literal (a : Atom) (hg : g.IsNnf) (hb : g.boundNames = [])
    (hv : g.freeVars = (a.inst fun x => .var (renamed ρ x)).vars)
    (ha : g.atoms = [a.inst fun x => .var (renamed ρ x)]) (hf : f.freeVars = a.vars)
    (hfa : f.atoms = [a]) : Standardized ρ f sig g sig where
  signature := ⟨_, Nat.le_refl _, rfl⟩
  isNnf := hg
  nodup := by simp [hb]
  numbered := by simp [hb]
  freeVars := by
    intro y hy
    rw [hv, Atom.mem_vars_inst] at hy
    obtain ⟨x, hx, hy⟩ := hy
    exact ⟨x, hf ▸ hx, by simpa using hy⟩
  atoms := by
    intro b hb
    rw [ha, List.mem_singleton] at hb
    refine ⟨a, by simp [hfa], by rw [hb, Atom.predicate_inst], fun s hs => ?_⟩
    rcases Atom.mem_symbols_inst.1 (hb ▸ hs) with hs | ⟨x, _, hs⟩
    · exact hs
    · simp [Term.symbols] at hs

theorem Standardized.and (hf : Standardized ρ f sig f' sig₁) (hg : Standardized ρ g sig₁ g' sig₂) :
    Standardized ρ (.and f g) sig (.and f' g') sig₂ where
  signature := by
    obtain ⟨k, hk, rfl⟩ := hf.signature
    obtain ⟨m, hm, rfl⟩ := hg.signature
    exact ⟨m, Nat.le_trans hk hm, rfl⟩
  isNnf := .and hf.isNnf hg.isNnf
  nodup := by
    rw [boundNames, List.nodup_append]
    refine ⟨hf.nodup, hg.nodup, fun x hx y hy => ?_⟩
    exact (hf.numbered x hx).ne (hg.numbered y hy) (Nat.le_refl _)
  numbered := by
    intro x hx
    rcases List.mem_append.1 hx with hx | hx
    · exact (hf.numbered x hx).mono (Nat.le_refl _) hg.counter_le
    · exact (hg.numbered x hx).mono hf.counter_le (Nat.le_refl _)
  freeVars := by
    intro y hy
    simp only [Formula.freeVars, List.mem_append] at hy ⊢
    rcases hy with hy | hy
    · obtain ⟨x, hx, he⟩ := hf.freeVars y hy
      exact ⟨x, Or.inl hx, he⟩
    · obtain ⟨x, hx, he⟩ := hg.freeVars y hy
      exact ⟨x, Or.inr hx, he⟩
  atoms := by
    intro b hb
    simp only [Formula.atoms, List.mem_append] at hb ⊢
    rcases hb with hb | hb
    · obtain ⟨a, ha, he⟩ := hf.atoms b hb
      exact ⟨a, Or.inl ha, he⟩
    · obtain ⟨a, ha, he⟩ := hg.atoms b hb
      exact ⟨a, Or.inr ha, he⟩

theorem Standardized.all
    (hf : Standardized ((x, (sig.freshVariable x).1) :: ρ) f (sig.freshVariable x).2 f' sig₁) :
    Standardized ρ (.all (.var x) f) sig (.all (.var (sig.freshVariable x).1) f') sig₁ where
  signature := by
    obtain ⟨k, hk, rfl⟩ := hf.signature
    exact ⟨k, Nat.le_of_succ_le hk, rfl⟩
  isNnf := .all hf.isNnf
  nodup := by
    rw [boundNames, List.nodup_cons]
    refine ⟨fun hm => ?_, hf.nodup⟩
    exact (numbered_fresh sig x).ne (hf.numbered _ hm) (Nat.le_refl _) rfl
  numbered := by
    intro y hy
    rcases List.mem_cons.1 hy with rfl | hy
    · exact (numbered_fresh sig x).mono (Nat.le_refl _) hf.counter_le
    · exact (hf.numbered y hy).mono (Nat.le_succ _) (Nat.le_refl _)
  freeVars := by
    intro y hy
    simp only [Formula.freeVars, List.mem_filter, bne_iff_ne] at hy ⊢
    obtain ⟨z, hz, he⟩ := hf.freeVars y hy.1
    rw [renamed_cons] at he
    split at he
    · exact absurd he hy.2
    · next hzx => exact ⟨z, ⟨hz, hzx⟩, he⟩
  atoms := hf.atoms

theorem rename_atom (ρ : List (String × String)) (a : Atom) :
    ({ a with args := a.args.map (Term.rename ρ) } : Atom) =
      a.inst fun x => .var (renamed ρ x) := by
  simp only [Atom.inst, funext (rename_eq_inst ρ)]

theorem IsNnf.standardized (hf : f.IsNnf) (ρ : List (String × String)) (sig : Signature) :
    Standardized ρ f sig (f.standardizeFrom ρ sig).1 (f.standardizeFrom ρ sig).2 := by
  induction hf generalizing ρ sig with
  | atomic a =>
    exact standardized_literal a (.atomic _) rfl (congrArg Atom.vars (rename_atom ρ a))
      (congrArg (fun b => [b]) (rename_atom ρ a)) rfl rfl
  | negated a =>
    exact standardized_literal a (.negated _) rfl (congrArg Atom.vars (rename_atom ρ a))
      (congrArg (fun b => [b]) (rename_atom ρ a)) rfl rfl
  | and _ _ ihf ihg => exact (ihf ρ sig).and (ihg ρ _)
  | @or f g _ _ ihf ihg =>
    have hf := ihf ρ sig
    have hg := ihg ρ (f.standardizeFrom ρ sig).2
    have h := hf.and hg
    exact ⟨h.signature, .or hf.isNnf hg.isNnf, h.nodup, h.numbered, h.freeVars, h.atoms⟩
  | all _ ih => exact Standardized.all (ih _ _)
  | @ex x f _ ih =>
    have hf := ih ((x, (sig.freshVariable x).1) :: ρ) (sig.freshVariable x).2
    have h := hf.all
    exact ⟨h.signature, .ex hf.isNnf, h.nodup, h.numbered, h.freeVars, h.atoms⟩

/-- A value for the new name of a bound variable leaves the names of all others alone. -/
theorem update_renamed (hx : ∀ z ∈ f.freeVars.filter (· != x),
      Numbered 0 sig.variableCounter (renamed ρ z) ∧ w (renamed ρ z) = v z) (d : D) :
    ∀ z ∈ f.freeVars,
      Numbered 0 (sig.variableCounter + 1) (renamed ((x, (sig.freshVariable x).1) :: ρ) z) ∧
      Function.update w (sig.freshVariable x).1 d
        (renamed ((x, (sig.freshVariable x).1) :: ρ) z) = Function.update v x d z := by
  intro z hz
  rw [renamed_cons]
  by_cases hzx : z = x
  · rw [if_pos hzx]
    refine ⟨(numbered_fresh sig x).mono (Nat.zero_le _) (Nat.le_refl _), ?_⟩
    rw [hzx, Function.update_self, Function.update_self]
  · obtain ⟨hn, hw⟩ := hx z (List.mem_filter.2 ⟨hz, by simpa using hzx⟩)
    rw [if_neg hzx, Function.update_of_ne hzx,
      Function.update_of_ne (hn.ne (numbered_fresh sig x) (Nat.le_refl _))]
    exact ⟨hn.mono (Nat.le_refl _) (Nat.le_succ _), hw⟩

theorem holds_rename {a : Atom} (ha : ∀ x ∈ a.vars, w (renamed ρ x) = v x) :
    Atom.Holds M w { a with args := a.args.map (Term.rename ρ) } ↔ a.Holds M v := by
  rw [rename_atom, Atom.holds_inst]
  exact Atom.holds_congr ha

theorem IsNnf.holds_standardizeFrom (hf : f.IsNnf)
    (h : ∀ x ∈ f.freeVars,
      Numbered 0 sig.variableCounter (renamed ρ x) ∧ w (renamed ρ x) = v x) :
    (f.standardizeFrom ρ sig).1.Holds M w ↔ f.Holds M v := by
  induction hf generalizing ρ sig v w with
  | atomic a => exact holds_rename fun x hx => (h x hx).2
  | negated a => exact not_congr (holds_rename fun x hx => (h x hx).2)
  | and hf _ ihf ihg =>
    have hc := (hf.standardized ρ sig).counter_le
    simp only [freeVars, List.mem_append] at h
    refine and_congr (ihf fun x hx => h x (Or.inl hx)) (ihg fun x hx => ?_)
    exact ⟨(h x (Or.inr hx)).1.mono (Nat.le_refl _) hc, (h x (Or.inr hx)).2⟩
  | or hf _ ihf ihg =>
    have hc := (hf.standardized ρ sig).counter_le
    simp only [freeVars, List.mem_append] at h
    refine or_congr (ihf fun x hx => h x (Or.inl hx)) (ihg fun x hx => ?_)
    exact ⟨(h x (Or.inr hx)).1.mono (Nat.le_refl _) hc, (h x (Or.inr hx)).2⟩
  | all _ ih => exact forall_congr' fun d => ih (update_renamed h d)
  | ex _ ih => exact exists_congr fun d => ih (update_renamed h d)

/-- A closed formula means the same with other bound variables. -/
theorem IsNnf.holds_standardize (hf : f.IsNnf) (hc : f.freeVars = []) :
    (f.standardize sig).1.Holds M v ↔ f.Holds M v :=
  hf.holds_standardizeFrom (by simp [hc])

end

end Formula

end Elenchus

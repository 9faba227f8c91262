import Elenchus.Proofs.NegationNormalForm

/-! Rules that push negations inwards and unfold implications on the way come to an end. -/

namespace Elenchus.Formula

variable {f g h : Formula}

/-! ### Implications -/

theorem isConditional_of_mem_eliminate (f : Formula) :
    ∀ h ∈ f.eliminate.subformulas, h.isConditional = false := by
  induction f with
  | atomic a | stray i => simp [eliminate, subformulas, isConditional]
  | not f ih | all b f ih | ex b f ih => exact List.forall_mem_cons.2 ⟨rfl, ih⟩
  | and f g ihf ihg | or f g ihf ihg =>
    exact List.forall_mem_cons.2 ⟨rfl, List.forall_mem_append.2 ⟨ihf, ihg⟩⟩
  | implies f g ihf ihg | iff f g ihf ihg => grind [eliminate, subformulas, isConditional]

theorem firstStray_eliminate (hf : f.firstStray = none) : f.eliminate.firstStray = none := by
  induction f with
  | atomic a => rfl
  | not f ih | all b f ih | ex b f ih => exact ih hf
  | and f g ihf ihg | or f g ihf ihg | implies f g ihf ihg | iff f g ihf ihg =>
    obtain ⟨hf, hg⟩ := (Option.orElse_eq_none _ _).1 hf
    simp [eliminate, firstStray, ihf hf, ihg hg]
  | stray i => cases hf

/-- Unfolding implications on the way comes to the same as unfolding them first. -/
theorem pushNegations_eliminate (f : Formula) (n : Bool) :
    f.eliminate.pushNegations n = f.pushNegations n := by
  induction f generalizing n with
  | atomic a | stray i => rfl
  | not f ih => cases n <;> exact ih _
  | and f g ihf ihg | or f g ihf ihg | implies f g ihf ihg | iff f g ihf ihg =>
    cases n <;> simp [eliminate, pushNegations, ihf, ihg]
  | all b f ih | ex b f ih => cases n <;> simp [eliminate, pushNegations, ih]

/-! ### Negation normal forms -/

/-- Nothing is left to push in a formula whose negations have been pushed inwards. -/
theorem nnf_pushNegations (f : Formula) (n : Bool) :
    (f.pushNegations n).nnf = f.pushNegations n := by
  simp only [nnf]
  induction f generalizing n with
  | atomic a | stray i => cases n <;> rfl
  | not f ih => cases n <;> exact ih _
  | and f g ihf ihg | or f g ihf ihg | implies f g ihf ihg | iff f g ihf ihg =>
    cases n <;> simp [pushNegations, ihf, ihg]
  | all b f ih | ex b f ih => cases n <;> simp [pushNegations, ih]

theorem firstStray_pushNegations (hf : f.firstStray = none) (n : Bool) :
    (f.pushNegations n).firstStray = none := by
  induction f generalizing n with
  | atomic a => cases n <;> rfl
  | not f ih => cases n <;> exact ih hf _
  | and f g ihf ihg | or f g ihf ihg | implies f g ihf ihg | iff f g ihf ihg =>
    obtain ⟨hf, hg⟩ := (Option.orElse_eq_none _ _).1 hf
    cases n <;> simp [pushNegations, firstStray, ihf hf, ihg hg]
  | all b f ih | ex b f ih => cases n <;> exact ih hf _
  | stray i => cases hf

theorem nnfStray_eq_none (hf : f.firstStray = none) (n : Bool) : f.nnfStray n = none := by
  induction f generalizing n with
  | atomic a => cases n <;> rfl
  | not f ih | all b f ih | ex b f ih => cases n <;> exact ih hf _
  | and f g ihf ihg | or f g ihf ihg =>
    obtain ⟨hf, hg⟩ := (Option.orElse_eq_none _ _).1 hf
    simp [nnfStray, ihf hf, ihg hg]
  | implies f g ihf ihg | iff f g ihf ihg =>
    obtain ⟨hf, hg⟩ := (Option.orElse_eq_none _ _).1 hf
    simp [nnfStray, hf, hg]
  | stray i => cases hf

theorem nnf?_eq_ok (hf : f.firstStray = none) : f.nnf? = .ok f.nnf := by
  rw [nnf?, nnfStray_eq_none hf]

theorem eliminate?_eq_ok (hf : f.firstStray = none) : f.eliminate? = .ok f.eliminate := by
  rw [eliminate?, unlessStray, hf]

/-! ### The rules -/

/-- What the rules make of a formula. The last four unfold a formula as a whole and start over. -/
inductive Pushes : Formula → Formula → Prop
  | atomic (a : Atom) : Pushes (.atomic a) (.atomic a)
  | negated (a : Atom) : Pushes (.not (.atomic a)) (.not (.atomic a))
  | doubled {f f' : Formula} (hf : Pushes f f') : Pushes (.not (.not f)) f'
  | notAnd {f g f' g' : Formula} (hf : Pushes (.not f) f') (hg : Pushes (.not g) g') :
    Pushes (.not (.and f g)) (.or f' g')
  | notOr {f g f' g' : Formula} (hf : Pushes (.not f) f') (hg : Pushes (.not g) g') :
    Pushes (.not (.or f g)) (.and f' g')
  | notAll {b : Binder} {f f' : Formula} (hf : Pushes (.not f) f') :
    Pushes (.not (.all b f)) (.ex b f')
  | notEx {b : Binder} {f f' : Formula} (hf : Pushes (.not f) f') :
    Pushes (.not (.ex b f)) (.all b f')
  | and {f g f' g' : Formula} (hf : Pushes f f') (hg : Pushes g g') :
    Pushes (.and f g) (.and f' g')
  | or {f g f' g' : Formula} (hf : Pushes f f') (hg : Pushes g g') : Pushes (.or f g) (.or f' g')
  | all {b : Binder} {f f' : Formula} (hf : Pushes f f') : Pushes (.all b f) (.all b f')
  | ex {b : Binder} {f f' : Formula} (hf : Pushes f f') : Pushes (.ex b f) (.ex b f')
  | implies {f g k : Formula} (hk : Pushes (eliminate (.implies f g)) k) :
    Pushes (.implies f g) k
  | iff {f g k : Formula} (hk : Pushes (eliminate (.iff f g)) k) : Pushes (.iff f g) k
  | notImplies {f g k : Formula} (hk : Pushes (eliminate (.not (.implies f g))) k) :
    Pushes (.not (.implies f g)) k
  | notIff {f g k : Formula} (hk : Pushes (eliminate (.not (.iff f g))) k) :
    Pushes (.not (.iff f g)) k

/-- Whatever the rules come to is the negation normal form. -/
theorem Pushes.eq_nnf (h : Pushes f g) : g = f.nnf := by
  induction h with
  | atomic a | negated a => rfl
  | doubled _ ih => exact ih
  | notAnd _ _ ihf ihg | notOr _ _ ihf ihg | and _ _ ihf ihg | or _ _ ihf ihg =>
    rw [ihf, ihg]
    rfl
  | notAll _ ih | notEx _ ih | all _ ih | ex _ ih =>
    rw [ih]
    rfl
  | implies _ ih | iff _ ih | notImplies _ ih | notIff _ ih =>
    exact ih.trans (pushNegations_eliminate _ _)

/-- The rules come to an end on a formula and on its negation. -/
def Settles (f : Formula) : Prop :=
  Pushes f (f.pushNegations false) ∧ Pushes (.not f) (f.pushNegations true)

/-- It is enough to know of the implications and equivalences in a formula. -/
theorem settles_of_conditionals (hf : f.firstStray = none)
    (hc : ∀ h ∈ f.subformulas, h.isConditional = true → h.Settles) : f.Settles := by
  induction f with
  | atomic a => exact ⟨.atomic a, .negated a⟩
  | not f ih =>
    obtain ⟨h, hn⟩ := ih hf fun h hh => hc h (List.mem_cons_of_mem _ hh)
    exact ⟨hn, .doubled h⟩
  | and f g ihf ihg =>
    obtain ⟨hf, hg⟩ := (Option.orElse_eq_none _ _).1 hf
    obtain ⟨h₁, hn₁⟩ := ihf hf fun h hh =>
      hc h (List.mem_cons_of_mem _ (List.mem_append_left _ hh))
    obtain ⟨h₂, hn₂⟩ := ihg hg fun h hh =>
      hc h (List.mem_cons_of_mem _ (List.mem_append_right _ hh))
    exact ⟨.and h₁ h₂, .notAnd hn₁ hn₂⟩
  | or f g ihf ihg =>
    obtain ⟨hf, hg⟩ := (Option.orElse_eq_none _ _).1 hf
    obtain ⟨h₁, hn₁⟩ := ihf hf fun h hh =>
      hc h (List.mem_cons_of_mem _ (List.mem_append_left _ hh))
    obtain ⟨h₂, hn₂⟩ := ihg hg fun h hh =>
      hc h (List.mem_cons_of_mem _ (List.mem_append_right _ hh))
    exact ⟨.or h₁ h₂, .notOr hn₁ hn₂⟩
  | implies f g _ _ | iff f g _ _ => exact hc _ List.mem_cons_self rfl
  | all b f ih =>
    obtain ⟨h, hn⟩ := ih hf fun h hh => hc h (List.mem_cons_of_mem _ hh)
    exact ⟨.all h, .notAll hn⟩
  | ex b f ih =>
    obtain ⟨h, hn⟩ := ih hf fun h hh => hc h (List.mem_cons_of_mem _ hh)
    exact ⟨.ex h, .notEx hn⟩
  | stray i => cases hf

theorem settles_eliminate (hf : f.firstStray = none) : f.eliminate.Settles := by
  refine settles_of_conditionals (firstStray_eliminate hf) fun h hh hc => ?_
  rw [isConditional_of_mem_eliminate f h hh] at hc
  cases hc

theorem firstStray_of_mem_subformulas (hf : f.firstStray = none) (hh : h ∈ f.subformulas) :
    h.firstStray = none := by
  induction f with
  | atomic a => simp_all [subformulas]
  | not f ih | all b f ih | ex b f ih =>
    rcases List.mem_cons.1 hh with rfl | hh
    · exact hf
    · exact ih hf hh
  | and f g ihf ihg | or f g ihf ihg | implies f g ihf ihg | iff f g ihf ihg =>
    rcases List.mem_cons.1 hh with rfl | hh
    · exact hf
    · obtain ⟨hf, hg⟩ := (Option.orElse_eq_none _ _).1 hf
      exact (List.mem_append.1 hh).elim (ihf hf) (ihg hg)
  | stray i => cases hf

/-- The rules come to an end. What is unfolded has no implications any more, so they start over at
most once on the way to each atom. -/
theorem settles (hf : f.firstStray = none) : f.Settles := by
  refine settles_of_conditionals hf fun h hh hc => ?_
  obtain ⟨he, hn⟩ := settles_eliminate (firstStray_of_mem_subformulas hf hh)
  rw [pushNegations_eliminate] at he hn
  cases h with
  | implies f g => exact ⟨.implies he, .notImplies hn⟩
  | iff f g => exact ⟨.iff he, .notIff hn⟩
  | _ => cases hc

theorem pushes_iff (hf : f.firstStray = none) (k : Formula) : Pushes f k ↔ k = f.nnf := by
  constructor
  · exact Pushes.eq_nnf
  · rintro rfl
    exact (settles hf).1

/-- Every formula has a negation normal form: the rules come to it and to nothing else, and so they
do after implications have been unfolded. It has no implications and no negations except on atoms,
and it is its own negation normal form. -/
theorem nnf?_settled (f : Formula) (hf : f.firstStray = none) :
    ∃ g, f.nnf? = .ok g ∧ (∀ k, Pushes f k ↔ k = g) ∧
      (∃ e, f.eliminate? = .ok e ∧ e.nnf? = .ok g ∧ ∀ k, Pushes e k ↔ k = g) ∧
      g.IsNegationNormal ∧ g.nnf? = .ok g := by
  have he : f.eliminate.nnf = f.nnf := pushNegations_eliminate f false
  refine ⟨f.nnf, nnf?_eq_ok hf, pushes_iff hf, ⟨f.eliminate, eliminate?_eq_ok hf, ?_, ?_⟩, ?_, ?_⟩
  · rw [nnf?_eq_ok (firstStray_eliminate hf), he]
  · rw [← he]
    exact pushes_iff (firstStray_eliminate hf)
  · exact isNegationNormal_pushNegations hf false
  · have hg : f.nnf.firstStray = none := firstStray_pushNegations hf false
    rw [nnf?_eq_ok hg]
    exact congrArg Except.ok (nnf_pushNegations f false)

/-- Not: `p` if and only if it is not so that `q` implies `r` of everything. -/
def conditionals : Formula :=
  .not (.iff (.atomic ⟨"p", []⟩)
    (.not (.implies (.atomic ⟨"q", []⟩)
      (.all (.var "x") (.not (.not (.atomic ⟨"r", [.var "x"]⟩)))))))

theorem nnf?_settled_conditionals :
    conditionals.firstStray = none ∧
      ∃ g, conditionals.nnf? = .ok g ∧ (∀ k, Pushes conditionals k ↔ k = g) ∧
        (∃ e, conditionals.eliminate? = .ok e ∧ e.nnf? = .ok g ∧ ∀ k, Pushes e k ↔ k = g) ∧
        g.IsNegationNormal ∧ g.nnf? = .ok g :=
  ⟨rfl, nnf?_settled conditionals rfl⟩

end Elenchus.Formula

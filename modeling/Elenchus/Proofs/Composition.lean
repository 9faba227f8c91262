import Elenchus.Proofs.Evaluation
import Mathlib.Data.List.Nodup

/-! Composition of substitutions: they are a monoid that acts on terms. -/

namespace Elenchus

theorem Term.subst_empty (t : Term) : t.subst .empty = t := by
  rw [subst_eq_inst]
  exact inst_var_eq_self t

namespace Subst

variable {σ τ ρ : Subst} {x : String} {t : Term}

/-! ### Bindings -/

theorem eq_of_bindings (h : σ.bindings = τ.bindings) : σ = τ := by
  cases σ
  cases τ
  simp_all

theorem binds_iff_mem_domain : σ.binds x = true ↔ x ∈ σ.domain := by
  simp [binds, Option.isSome_iff_exists, get?_eq_some_iff, domain]

theorem bindings_pin_of_notMem (h : x ∉ σ.domain) :
    (σ.pin x t).bindings = σ.bindings ++ [(x, t)] :=
  put_of_new h t

/-- Bindings of new variables come at the end, in their order. -/
theorem bindings_foldl {add : Subst → String × Term → Subst}
    (hadd : ∀ ρ b, b.1 ∉ ρ.domain → add ρ b = ρ.pin b.1 b.2) (bs : List (String × Term))
    (hn : ((σ.bindings ++ bs).map Prod.fst).Nodup) :
    (bs.foldl add σ).bindings = σ.bindings ++ bs := by
  induction bs generalizing σ with
  | nil => simp
  | cons b bs ih =>
    have hb : b.1 ∉ σ.domain := by
      rw [List.map_append, List.map_cons, List.nodup_append] at hn
      exact fun hm => hn.2.2 b.1 hm b.1 List.mem_cons_self rfl
    have hpin : (add σ b).bindings = σ.bindings ++ [b] := by
      rw [hadd σ b hb, bindings_pin_of_notMem hb]
    have happend : (add σ b).bindings ++ bs = σ.bindings ++ b :: bs := by
      rw [hpin, List.append_assoc, List.singleton_append]
    rw [List.foldl_cons, ih (happend ▸ hn), happend]

/-! ### One form for each substitution -/

/-- No variable is bound to itself. -/
def IsCanonical (σ : Subst) : Prop := ∀ b ∈ σ.bindings, isIdentity b = false

theorem isCanonical_proper (σ : Subst) : σ.proper.IsCanonical := by
  intro b hb
  simpa using (List.mem_filter.1 hb).2

theorem IsCanonical.proper_eq (h : σ.IsCanonical) : σ.proper = σ :=
  eq_of_bindings (List.filter_eq_self.2 fun b hb => by simp [h b hb])

/-- These are the substitutions that pairs are read as. -/
theorem isCanonical_iff : σ.IsCanonical ↔ ∃ ps, σ = ofList ps := by
  constructor
  · intro h
    have hbindings : (σ.bindings.foldl (fun ρ p => ρ.pin p.1 p.2) empty).bindings = σ.bindings :=
      bindings_foldl (fun _ _ _ => rfl) σ.bindings σ.nodup
    refine ⟨σ.bindings, ?_⟩
    rw [ofList, eq_of_bindings hbindings, h.proper_eq]
  · rintro ⟨ps, rfl⟩
    exact isCanonical_proper _

/-- What stands for a variable tells whether it is bound. -/
theorem IsCanonical.get?_eq (h : σ.IsCanonical) (x : String) :
    σ.get? x = if σ.value x = .var x then none else some (σ.value x) := by
  cases hx : σ.get? x with
  | none => simp [value, hx]
  | some t =>
    have ht := h _ (get?_eq_some_iff.1 hx)
    simp_all [value, isIdentity]

theorem same_of_get?_eq (h : ∀ x, σ.get? x = τ.get? x) : σ.same τ = true := by
  have hmem : ∀ b, b ∈ σ.bindings ↔ b ∈ τ.bindings := by
    intro b
    rw [← get?_eq_some_iff, ← get?_eq_some_iff, h]
  have hperm : σ.bindings.Perm τ.bindings :=
    (List.perm_ext_iff_of_nodup (.of_map _ σ.nodup) (.of_map _ τ.nodup)).2 hmem
  simp only [same, Bool.and_eq_true, beq_iff_eq, List.all_eq_true]
  exact ⟨hperm.length_eq, fun b hb => get?_eq_some_iff.2 ((hmem b).1 hb)⟩

/-- Substitutions without identities that do the same are the same. -/
theorem IsCanonical.same_of_value_eq (hσ : σ.IsCanonical) (hτ : τ.IsCanonical)
    (h : ∀ x, σ.value x = τ.value x) : σ.same τ = true :=
  same_of_get?_eq fun x => by rw [hσ.get?_eq, hτ.get?_eq, h]

/-! ### Composition -/

theorem isCanonical_compose (σ τ : Subst) : (σ.compose τ).IsCanonical := isCanonical_proper _

/-- The bindings of the first substitution win over those of the second. -/
theorem get?_foldl_pin (bs : List (String × Term)) (σ : Subst) (x : String) :
    (bs.foldl (fun ρ b => if ρ.binds b.1 then ρ else ρ.pin b.1 b.2) σ).get? x =
      (σ.get? x).or (bs.lookup x) := by
  induction bs generalizing σ with
  | nil => simp
  | cons b bs ih =>
    obtain ⟨y, u⟩ := b
    rw [List.foldl_cons, ih, lookup_cons_ite]
    cases hy : σ.get? y with
    | none =>
      rw [if_neg (by simp [binds, hy]), get?_pin]
      by_cases hx : x = y <;> simp [hx, hy]
    | some t =>
      rw [if_pos (by simp [binds, hy])]
      by_cases hx : x = y <;> simp [hx, hy]

theorem value_compose (σ τ : Subst) (x : String) :
    (σ.compose τ).value x = (σ.value x).subst τ := by
  rw [compose, value_proper, value, get?_foldl_pin, get?_mapValues, value]
  cases σ.get? x <;> rfl

theorem subst_compose (σ τ : Subst) (t : Term) : t.subst (σ.compose τ) = (t.subst σ).subst τ := by
  rw [Term.subst_eq_inst, funext (value_compose σ τ), Term.subst_subst_eq_inst]

theorem same_compose_assoc (σ τ ρ : Subst) :
    ((σ.compose τ).compose ρ).same (σ.compose (τ.compose ρ)) = true := by
  refine (isCanonical_compose _ _).same_of_value_eq (isCanonical_compose _ _) fun x => ?_
  rw [value_compose, value_compose, value_compose, subst_compose]

theorem IsCanonical.compose_empty (h : σ.IsCanonical) : σ.compose empty = σ := by
  have hmap : σ.mapValues (Term.subst empty) = σ :=
    eq_of_bindings (by simp [mapValues, Term.subst_empty])
  exact (congrArg proper hmap).trans h.proper_eq

theorem IsCanonical.empty_compose (h : σ.IsCanonical) : empty.compose σ = σ := by
  rw [compose]
  refine (congrArg proper (eq_of_bindings ?_)).trans h.proper_eq
  refine bindings_foldl (fun ρ b hb => if_neg ?_) σ.bindings σ.nodup
  rwa [binds_iff_mem_domain]

theorem domain_mapValues (σ : Subst) (f : Term → Term) : (σ.mapValues f).domain = σ.domain := by
  simp [domain, mapValues]

theorem bindings_single (x : String) (t : Term) :
    (single x t).bindings = if t = .var x then [] else [(x, t)] := by
  by_cases ht : t = .var x <;> simp [single, ofList, empty, pin, proper, isIdentity, ht]

/-- Where a binding of a variable to itself would come in, it is left out again. -/
theorem proper_pin_self (hx : x ∉ σ.domain) : (σ.pin x (.var x)).proper = σ.proper :=
  eq_of_bindings (by simp [proper, bindings_pin_of_notMem hx, isIdentity])

theorem bind_eq_compose (hx : σ.binds x = false) (t : Term) :
    σ.bind x t = σ.compose (single x t) := by
  have hdomain : x ∉ (σ.mapValues (Term.subst (single x t))).domain := by
    rw [domain_mapValues, ← binds_iff_mem_domain, hx]
    decide
  rw [bind, compose, bindings_single]
  by_cases ht : t = .var x
  · rw [if_pos ht, List.foldl_nil, ← proper_pin_self hdomain]
    rw [ht]
  · rw [if_neg ht, List.foldl_cons, List.foldl_nil, if_neg]
    rwa [binds_iff_mem_domain]

/-- Substitutions that are made from pairs are a monoid under composition, up to the order of their
bindings, and act on terms; to bind a variable that has no value is to compose with one binding. It
is only for the empty one to be neutral that identities have to be left out. -/
theorem compose_monoid {σ : Subst} (hσ : ∃ ps, σ = ofList ps) (τ ρ : Subst) :
    (∃ ps, σ.compose τ = ofList ps) ∧
      (∀ t : Term, t.subst (σ.compose τ) = (t.subst σ).subst τ) ∧
      ((σ.compose τ).compose ρ).same (σ.compose (τ.compose ρ)) = true ∧
      empty.compose σ = σ ∧ σ.compose empty = σ ∧
      ∀ x t, σ.binds x = false → σ.bind x t = σ.compose (ofList [(x, t)]) := by
  have hc : σ.IsCanonical := isCanonical_iff.2 hσ
  refine ⟨isCanonical_iff.1 (isCanonical_compose σ τ), subst_compose σ τ, ?_, ?_, ?_, ?_⟩
  · exact same_compose_assoc σ τ ρ
  · exact hc.empty_compose
  · exact hc.compose_empty
  · exact fun x t hx => bind_eq_compose hx t

def there : Subst := single "x" (.var "y")

def back : Subst := single "y" (.var "x")

def away : Subst := single "x" (.const "a")

/-- There and back again, `x` is bound to itself and so it is not bound. -/
theorem compose_monoid_there :
    there.binds "y" = false ∧ (∃ ps, there = ofList ps) ∧ (∃ ps, there.compose back = ofList ps) ∧
      (∀ t : Term, t.subst (there.compose back) = (t.subst there).subst back) ∧
      ((there.compose back).compose away).same (there.compose (back.compose away)) = true ∧
      empty.compose there = there ∧ there.compose empty = there ∧
      there.bind "y" (.var "x") = there.compose (ofList [("y", .var "x")]) :=
  have hthere : ∃ ps, there = ofList ps := ⟨[("x", .var "y")], rfl⟩
  have hy : there.binds "y" = false := by decide
  have ⟨hmade, haction, hassoc, hleft, hright, hbind⟩ := compose_monoid hthere back away
  ⟨hy, hthere, hmade, haction, hassoc, hleft, hright, hbind "y" (.var "x") hy⟩

-- The order of the bindings does depend on where the brackets are.
example : (there.compose back).compose away ≠ there.compose (back.compose away) := by decide

end Subst

end Elenchus

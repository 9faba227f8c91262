import Elenchus.Proofs.Literals
import Elenchus.Proofs.Names

/-! Factors and resolvents of clauses by most general unifiers, however these are computed. -/

namespace Elenchus

/-- The substitution makes the atoms equal, and all others that do are instances of it. -/
structure IsMgu (σ : String → Term) (a b : Atom) : Prop where
  unifies : a.inst σ = b.inst σ
  general : ∀ τ : String → Term, a.inst τ = b.inst τ → ∃ ζ : String → Term, ∀ x, (σ x).inst ζ = τ x

section Mgu

variable {σ : String → Term} {a b : Atom}

theorem IsMgu.symm (h : IsMgu σ a b) : IsMgu σ b a :=
  ⟨h.unifies.symm, fun τ hτ => h.general τ hτ.symm⟩

/-- A solution that extends nothing is most general among all solutions. -/
theorem Subst.Solves.isMgu {τ : Subst} (h : Solves .empty τ [(a.term, b.term)]) :
    IsMgu τ.value a b := by
  refine ⟨?_, fun θ hθ => ⟨θ, h.general θ ?_⟩⟩
  · have heq := h.atom_eq
    rwa [Atom.subst_eq_inst, Atom.subst_eq_inst] at heq
  · intro e he
    obtain rfl := List.mem_singleton.1 he
    have hterm := congrArg Atom.term hθ
    rwa [Atom.term_inst, Atom.term_inst] at hterm

theorem unifyAtoms_of_inst_eq {θ : String → Term} (h : a.inst θ = b.inst θ) :
    ∃ τ, Subst.unifyAtoms true .empty a b = some τ ∧ IsMgu τ.value a b := by
  obtain ⟨τ, hτ⟩ := Subst.unifyAtoms_isSome Subst.idempotent_empty
    (show (a.subst .empty).inst θ = (b.subst .empty).inst θ by
      rw [Atom.subst_empty, Atom.subst_empty, h])
  exact ⟨τ, hτ, (Subst.unifyAtoms_solves Subst.idempotent_empty hτ).isMgu⟩

end Mgu

namespace Clause

variable {c d e e' : Clause} {l m : Literal} {θ η ζ ζ' : String → Term}

/-- A clause covers another into which it maps if it can be recovered from there. -/
theorem Covers.of_variant (ζ ζ' : String → Term) (h : ∀ k ∈ e.literals, k.inst ζ ∈ e'.literals)
    (h' : ∀ k ∈ e.literals, (k.inst ζ).inst ζ' = k) : e.Covers e' := by
  refine ⟨?_, ζ, h⟩
  have hnodup : (e.literals.map (Literal.inst ζ)).Nodup :=
    e.nodup.map_on fun k hk n hn heq => by rw [← h' k hk, heq, h' n hn]
  have hsub : e.literals.map (Literal.inst ζ) ⊆ e'.literals := by
    intro n hn
    obtain ⟨k, hk, rfl⟩ := List.mem_map.1 hn
    exact h k hk
  simpa [length] using (hnodup.subperm hsub).length_le

/-! ### Factors -/

/-- `e` is `c` with its literals `l` and `m` merged. -/
def FactorOn (c : Clause) (l m : Literal) (e : Clause) : Prop :=
  l.positive = m.positive ∧ ∃ σ, IsMgu σ l.atom m.atom ∧
    ∀ k, k ∈ e.literals ↔ ∃ n ∈ c.literals, n.inst σ = k

/-- `e` is a binary factor of `c`. -/
def Factor (c e : Clause) : Prop :=
  ∃ l ∈ c.literals, ∃ m ∈ c.literals, l ≠ m ∧ FactorOn c l m e

theorem FactorOn.symm (h : FactorOn c l m e) : FactorOn c m l e := by
  obtain ⟨hp, σ, hσ, hmem⟩ := h
  exact ⟨hp.symm, σ, hσ.symm, hmem⟩

theorem FactorOn.covers (h : FactorOn c l m e) (h' : FactorOn c l m e') : e.Covers e' := by
  obtain ⟨-, σ, hσ, hmem⟩ := h
  obtain ⟨-, τ, hτ, hmem'⟩ := h'
  obtain ⟨ζ, hζ⟩ := hσ.general τ hτ.unifies
  obtain ⟨ζ', hζ'⟩ := hτ.general σ hσ.unifies
  have hforth : ∀ n : Literal, (n.inst σ).inst ζ = n.inst τ := fun n => by
    rw [Literal.inst_inst]
    exact Literal.inst_congr fun x _ => hζ x
  have hback : ∀ n : Literal, (n.inst τ).inst ζ' = n.inst σ := fun n => by
    rw [Literal.inst_inst]
    exact Literal.inst_congr fun x _ => hζ' x
  refine .of_variant ζ ζ' ?_ ?_ <;> intro k hk <;>
    obtain ⟨n, hn, rfl⟩ := (hmem k).1 hk
  · exact (hmem' _).2 ⟨n, hn, (hforth n).symm⟩
  · rw [hforth, hback]

theorem FactorOn.exists_inst_eq (h : FactorOn c l m e) : ∃ θ, l.inst θ = m.inst θ := by
  obtain ⟨hp, σ, hσ, -⟩ := h
  exact ⟨σ, by rw [Literal.inst, Literal.inst, hp, hσ.unifies]⟩

/-- Merging makes a clause shorter. -/
theorem FactorOn.length_lt (h : FactorOn c l m e) (hl : l ∈ c.literals) (hm : m ∈ c.literals)
    (hne : l ≠ m) : e.length < c.length := by
  obtain ⟨hp, σ, hσ, hmem⟩ := h
  have hsub : e.literals ⊆ (c.literals.erase m).map (Literal.inst σ) := by
    intro k hk
    obtain ⟨n, hn, rfl⟩ := (hmem k).1 hk
    by_cases hnm : n = m
    · have hlm : l.inst σ = n.inst σ := by
        rw [hnm, Literal.inst, Literal.inst, hp, hσ.unifies]
      exact hlm ▸ List.mem_map_of_mem ((List.mem_erase_of_ne hne).2 hl)
    · exact List.mem_map_of_mem ((List.mem_erase_of_ne hnm).2 hn)
  have hle := (e.nodup.subperm hsub).length_le
  rw [List.length_map, List.length_erase_of_mem hm] at hle
  have hpos : 0 < c.literals.length := List.length_pos_of_mem hm
  simp only [length]
  omega

theorem FactorOn.exists_instance (h : FactorOn c l m e) (heq : l.inst θ = m.inst θ) :
    ∃ ζ : String → Term, ∀ k ∈ e.literals, ∃ n ∈ c.literals, k.inst ζ = n.inst θ := by
  obtain ⟨-, σ, hσ, hmem⟩ := h
  obtain ⟨ζ, hζ⟩ := hσ.general θ (congrArg Literal.atom heq)
  refine ⟨ζ, fun k hk => ?_⟩
  obtain ⟨n, hn, rfl⟩ := (hmem k).1 hk
  refine ⟨n, hn, ?_⟩
  rw [Literal.inst_inst]
  exact Literal.inst_congr fun x _ => hζ x

theorem exists_factorOn (c : Clause) (heq : l.inst θ = m.inst θ) : ∃ e, FactorOn c l m e := by
  obtain ⟨τ, -, hτ⟩ := unifyAtoms_of_inst_eq (congrArg Literal.atom heq)
  have hp : (l.inst θ).positive = (m.inst θ).positive := congrArg Literal.positive heq
  exact ⟨ofList (c.literals.map (Literal.inst τ.value)), hp, τ.value, hτ, fun k => by simp⟩

/-! ### Resolvents -/

/-- The renaming makes a copy of `d` that has no variable in common with `c`. -/
structure RenamesApart (ρ : String → String) (c d : Clause) : Prop where
  injective : ∀ x ∈ d.vars, ∀ y ∈ d.vars, ρ x = ρ y → x = y
  apart : ∀ x ∈ d.vars, ρ x ∉ c.vars

/-- `e` is what remains of `c` and a copy of `d` when they are resolved on `l` and `m`. -/
def ResolventOn (c d : Clause) (l m : Literal) (e : Clause) : Prop :=
  l.positive ≠ m.positive ∧ ∃ ρ, RenamesApart ρ c d ∧
    ∃ σ, IsMgu σ l.atom (m.atom.inst fun x => .var (ρ x)) ∧
      ∀ k, k ∈ e.literals ↔ (∃ n ∈ c.literals, n ≠ l ∧ n.inst σ = k) ∨
        ∃ n ∈ d.literals, n ≠ m ∧ (n.inst fun x => .var (ρ x)).inst σ = k

/-- `e` is a binary resolvent of `c` and `d`. -/
def Resolvent (c d e : Clause) : Prop :=
  ∃ l ∈ c.literals, ∃ m ∈ d.literals, ResolventOn c d l m e

/-- The instances `α` of `c` and `β` of `d` are most general among those in which `l` and `m` are
complementary, and the other literals make up `e`. Here the two clauses need no common names. -/
structure RemainsOf (c d : Clause) (l m : Literal) (α β : String → Term) (e : Clause) : Prop where
  complementary : m.inst β = (l.inst α).negate
  general : ∀ θ η : String → Term, m.inst η = (l.inst θ).negate → ∃ ζ : String → Term,
    (∀ x ∈ c.vars, (α x).inst ζ = θ x) ∧ ∀ x ∈ d.vars, (β x).inst ζ = η x
  mem_iff : ∀ k, k ∈ e.literals ↔
    (∃ n ∈ c.literals, n ≠ l ∧ n.inst α = k) ∨ ∃ n ∈ d.literals, n ≠ m ∧ n.inst β = k

section

variable {α β α' β' : String → Term}

theorem RemainsOf.symm (h : RemainsOf c d l m α β e) : RemainsOf d c m l β α e := by
  refine ⟨?_, fun θ η heq => ?_, fun k => (h.mem_iff k).trans or_comm⟩
  · rw [h.complementary, Literal.negate_negate]
  · obtain ⟨ζ, hθ, hη⟩ := h.general η θ (by rw [heq, Literal.negate_negate])
    exact ⟨ζ, hη, hθ⟩

/-- Instances of the clauses agree where those of their variables do. -/
theorem inst_inst_of_vars {n : Literal} (h : ∀ x ∈ c.vars, (α x).inst ζ = θ x)
    (hn : n ∈ c.literals) : (n.inst α).inst ζ = n.inst θ := by
  rw [Literal.inst_inst]
  exact Literal.inst_congr fun x hx => h x (mem_vars.2 ⟨n, hn, hx⟩)

theorem RemainsOf.exists_instance (h : RemainsOf c d l m α β e)
    (heq : m.inst η = (l.inst θ).negate) :
    ∃ ζ : String → Term, ∀ k ∈ e.literals, (∃ n ∈ c.literals, n ≠ l ∧ k.inst ζ = n.inst θ) ∨
      ∃ n ∈ d.literals, n ≠ m ∧ k.inst ζ = n.inst η := by
  obtain ⟨ζ, hθ, hη⟩ := h.general θ η heq
  refine ⟨ζ, fun k hk => ?_⟩
  rcases (h.mem_iff k).1 hk with ⟨n, hn, hne, rfl⟩ | ⟨n, hn, hne, rfl⟩
  · exact Or.inl ⟨n, hn, hne, inst_inst_of_vars hθ hn⟩
  · exact Or.inr ⟨n, hn, hne, inst_inst_of_vars hη hn⟩

theorem RemainsOf.covers (h : RemainsOf c d l m α β e) (h' : RemainsOf c d l m α' β' e') :
    e.Covers e' := by
  obtain ⟨ζ, hα, hβ⟩ := h.general α' β' h'.complementary
  obtain ⟨ζ', hα', hβ'⟩ := h'.general α β h.complementary
  refine .of_variant ζ ζ' ?_ ?_ <;> intro k hk <;>
    rcases (h.mem_iff k).1 hk with ⟨n, hn, hne, rfl⟩ | ⟨n, hn, hne, rfl⟩
  · exact (h'.mem_iff _).2 (Or.inl ⟨n, hn, hne, (inst_inst_of_vars hα hn).symm⟩)
  · exact (h'.mem_iff _).2 (Or.inr ⟨n, hn, hne, (inst_inst_of_vars hβ hn).symm⟩)
  · rw [inst_inst_of_vars hα hn, inst_inst_of_vars hα' hn]
  · rw [inst_inst_of_vars hβ hn, inst_inst_of_vars hβ' hn]

end

/-- Instances of `c` and of the copy of `d` can be chosen independently. -/
theorem RenamesApart.combine {ρ : String → String} (h : RenamesApart ρ c d)
    (θ η : String → Term) :
    ∃ τ : String → Term, (∀ x ∈ c.vars, τ x = θ x) ∧ ∀ x ∈ d.vars, τ (ρ x) = η x := by
  classical
  refine ⟨fun y => if hy : ∃ x ∈ d.vars, ρ x = y then η hy.choose else θ y,
    fun x hx => dif_neg ?_, fun x hx => ?_⟩
  · rintro ⟨y, hy, rfl⟩
    exact h.apart y hy hx
  · have hy : ∃ y ∈ d.vars, ρ y = ρ x := ⟨x, hx, rfl⟩
    simp only [dif_pos hy]
    rw [h.injective _ hy.choose_spec.1 x hx hy.choose_spec.2]

/-- Complementary instances are complementary under the combined one. -/
theorem RenamesApart.complementary {ρ : String → String} {τ : String → Term}
    (hl : l ∈ c.literals) (hm : m ∈ d.literals) (hθ : ∀ x ∈ c.vars, τ x = θ x)
    (hη : ∀ x ∈ d.vars, τ (ρ x) = η x) (heq : m.inst η = (l.inst θ).negate) :
    (m.inst fun x => .var (ρ x)).inst τ = (l.inst τ).negate := by
  have hl' : l.inst τ = l.inst θ := Literal.inst_congr fun x hx => hθ x (mem_vars.2 ⟨l, hl, hx⟩)
  have hm' : (m.inst fun x => .var (ρ x)).inst τ = m.inst η := by
    rw [Literal.inst_inst]
    exact Literal.inst_congr fun x hx => hη x (mem_vars.2 ⟨m, hm, hx⟩)
  rw [hm', hl', heq]

theorem ResolventOn.remainsOf (h : ResolventOn c d l m e) (hl : l ∈ c.literals)
    (hm : m ∈ d.literals) : ∃ α β, RemainsOf c d l m α β e := by
  obtain ⟨hs, ρ, hρ, σ, hσ, hmem⟩ := h
  have hcopy : ∀ n : Literal, (n.inst fun x => .var (ρ x)).inst σ = n.inst fun x => σ (ρ x) :=
    fun n => Literal.inst_inst n
  refine ⟨σ, fun x => σ (ρ x), ?_, fun θ η heq => ?_, fun k => ?_⟩
  · refine Literal.eq_negate_iff.2 ⟨hs, ?_⟩
    rw [← hcopy m]
    exact hσ.unifies
  · obtain ⟨τ, hθ, hη⟩ := hρ.combine θ η
    have hcompl := RenamesApart.complementary hl hm hθ hη heq
    obtain ⟨ζ, hζ⟩ := hσ.general τ (Literal.eq_negate_iff.1 hcompl).2
    exact ⟨ζ, fun x hx => (hζ x).trans (hθ x hx), fun x hx => (hζ (ρ x)).trans (hη x hx)⟩
  · simp only [hmem, hcopy]

theorem exists_renamesApart (c d : Clause) : ∃ ρ, RenamesApart ρ c d := by
  refine ⟨fun x => longName c.vars ++ x, fun x _ y _ heq => ?_, fun x _ hc => ?_⟩
  · have hlist := congrArg String.toList heq
    rw [String.toList_append, String.toList_append] at hlist
    exact String.toList_inj.1 (List.append_cancel_left hlist)
  · have hlt := length_lt_longName hc
    rw [String.length_append] at hlt
    omega

theorem exists_resolventOn (hl : l ∈ c.literals) (hm : m ∈ d.literals)
    (heq : m.inst η = (l.inst θ).negate) : ∃ e, ResolventOn c d l m e := by
  obtain ⟨ρ, hρ⟩ := exists_renamesApart c d
  obtain ⟨τ, hθ, hη⟩ := hρ.combine θ η
  have hcompl := RenamesApart.complementary hl hm hθ hη heq
  obtain ⟨hs, hatom⟩ := Literal.eq_negate_iff.1 hcompl
  obtain ⟨σ, -, hσ⟩ := unifyAtoms_of_inst_eq hatom
  refine ⟨ofList ((c.literals.filter (· ≠ l)).map (Literal.inst σ.value) ++
    (d.literals.filter (· ≠ m)).map fun n => (n.inst fun x => .var (ρ x)).inst σ.value),
    hs, ρ, hρ, σ.value, hσ, fun k => ?_⟩
  simp [and_assoc]

end Clause

end Elenchus

import Elenchus.Proofs.Resolvents
import Elenchus.Proofs.Structures
import Mathlib.Order.TeichmullerTukey

/-!
Clauses that are closed under factors and resolvents have a structure on the terms themselves.
-/

namespace Elenchus

namespace Clause

variable {L L' U : Clause → Prop} {c d e : Clause} {l : Literal} {S : Set Literal}
  {ζ : String → Term}

/-- A tautology, or covered by a clause of the set. -/
def Redundant (L : Clause → Prop) (e : Clause) : Prop :=
  e.isTautology = true ∨ ∃ c, L c ∧ c.Covers e

theorem isTautology_iff : c.isTautology = true ↔ ∃ l ∈ c.literals, l.negate ∈ c.literals := by
  simp [isTautology]

theorem satisfies_of_isTautology {D : Type*} (h : c.isTautology = true) (M : Structure D) :
    M.Satisfies c := by
  intro v
  obtain ⟨l, hl, hn⟩ := isTautology_iff.1 h
  by_cases hv : l.Holds M v
  · exact ⟨l, hl, hv⟩
  · exact ⟨l.negate, hn, Literal.holds_negate.2 hv⟩

theorem Covers.isTautology (h : c.Covers e) (hc : c.isTautology = true) :
    e.isTautology = true := by
  obtain ⟨l, hl, hn⟩ := isTautology_iff.1 hc
  obtain ⟨-, θ, hθ⟩ := h
  exact isTautology_iff.2 ⟨l.inst θ, hθ l hl, hθ _ hn⟩

theorem redundant_of_mem (h : L c) : Redundant L c := Or.inr ⟨c, h, .refl c⟩

theorem Redundant.of_covers (h : Redundant L c) (hc : c.Covers e) : Redundant L e := by
  rcases h with h | ⟨d, hd, hcov⟩
  · exact Or.inl (hc.isTautology h)
  · exact Or.inr ⟨d, hd, hcov.trans hc⟩

theorem Redundant.mono (h : Redundant L e) (hL : ∀ c, L c → Redundant L' c) : Redundant L' e := by
  rcases h with h | ⟨c, hc, hcov⟩
  · exact Or.inl h
  · exact (hL c hc).of_covers hcov

/-- All factors of the clause are redundant. -/
def FactorsIn (L : Clause → Prop) (c : Clause) : Prop := ∀ e, c.Factor e → Redundant L e

/-- All resolvents of the clauses are redundant. -/
def ResolvesIn (L : Clause → Prop) (c d : Clause) : Prop := ∀ e, c.Resolvent d e → Redundant L e

theorem FactorsIn.mono (h : FactorsIn L c) (hL : ∀ c, L c → Redundant L' c) : FactorsIn L' c :=
  fun e he => (h e he).mono hL

theorem ResolvesIn.mono (h : ResolvesIn L c d) (hL : ∀ c, L c → Redundant L' c) :
    ResolvesIn L' c d :=
  fun e he => (h e he).mono hL

/-- Literals that an instance makes equal can be merged: a shorter clause that is redundant has an
instance within the given one. -/
theorem FactorsIn.exists_instance (h : FactorsIn L c) {θ : String → Term} {m : Literal}
    (hl : l ∈ c.literals) (hm : m ∈ c.literals) (hne : l ≠ m) (heq : l.inst θ = m.inst θ) :
    ∃ e, Redundant L e ∧ e.length < c.length ∧
      ∃ ζ : String → Term, ∀ k ∈ e.literals, ∃ n ∈ c.literals, k.inst ζ = n.inst θ := by
  obtain ⟨e, he⟩ := exists_factorOn c heq
  exact ⟨e, h e ⟨l, hl, m, hm, hne, he⟩, he.length_lt hl hm hne, he.exists_instance heq⟩

/-- Complementary instances of literals can be resolved: a clause that is redundant has an instance
within the other literals. -/
theorem ResolvesIn.exists_instance (h : ResolvesIn L c d) {θ η : String → Term} {m : Literal}
    (hl : l ∈ c.literals) (hm : m ∈ d.literals) (heq : m.inst η = (l.inst θ).negate) :
    ∃ e, Redundant L e ∧ ∃ ζ : String → Term, ∀ k ∈ e.literals,
      (∃ n ∈ c.literals, n ≠ l ∧ k.inst ζ = n.inst θ) ∨
        ∃ n ∈ d.literals, n ≠ m ∧ k.inst ζ = n.inst η := by
  obtain ⟨e, he⟩ := exists_resolventOn hl hm heq
  obtain ⟨α, β, hrem⟩ := he.remainsOf hl hm
  exact ⟨e, h e ⟨l, hl, m, hm, he⟩, hrem.exists_instance heq⟩

/-! ### Sets of false literals -/

/-- The literals of the set cannot all be false: two of them are complementary, or they contain an
instance of a clause. -/
def Blocked (U : Clause → Prop) (S : Set Literal) : Prop :=
  (∃ l ∈ S, l.negate ∈ S) ∨ ∃ c, U c ∧ ∃ θ : String → Term, ∀ l ∈ c.literals, l.inst θ ∈ S

theorem Redundant.blocked (h : Redundant U e) (he : ∀ k ∈ e.literals, k.inst ζ ∈ S) :
    Blocked U S := by
  rcases h with h | ⟨c, hc, -, θ, hθ⟩
  · obtain ⟨l, hl, hn⟩ := isTautology_iff.1 h
    exact Or.inl ⟨l.inst ζ, he l hl, he _ hn⟩
  · refine Or.inr ⟨c, hc, fun x => (θ x).inst ζ, fun l hl => ?_⟩
    rw [← Literal.inst_inst]
    exact he _ (hθ l hl)

/-- With factors there is an instance in which all literals of the clause stay apart. The argument
descends along the lengths of clauses, because no clause is covered by a longer one. -/
theorem exists_injective_instance (hf : ∀ c, U c → FactorsIn U c) (hc : U c) {θ : String → Term}
    (hθ : ∀ l ∈ c.literals, l.inst θ ∈ S) :
    (∃ l ∈ S, l.negate ∈ S) ∨ ∃ c, U c ∧ ∃ θ : String → Term, (∀ l ∈ c.literals, l.inst θ ∈ S) ∧
      ∀ l ∈ c.literals, ∀ m ∈ c.literals, l.inst θ = m.inst θ → l = m := by
  induction hn : c.length using Nat.strong_induction_on generalizing c θ with
  | _ n ih =>
    by_cases hinj : ∀ l ∈ c.literals, ∀ m ∈ c.literals, l.inst θ = m.inst θ → l = m
    · exact Or.inr ⟨c, hc, θ, hθ, hinj⟩
    · push Not at hinj
      obtain ⟨l, hl, m, hm, heq, hne⟩ := hinj
      obtain ⟨e, he, hlt, ζ, hζ⟩ := (hf c hc).exists_instance hl hm hne heq
      have hin : ∀ k ∈ e.literals, k.inst ζ ∈ S := fun k hk => by
        obtain ⟨n, hn, hk⟩ := hζ k hk
        exact hk ▸ hθ n hn
      rcases he with he | ⟨d, hd, hlen, η, hη⟩
      · obtain ⟨k, hk, hk'⟩ := isTautology_iff.1 he
        exact Or.inl ⟨k.inst ζ, hin k hk, hin _ hk'⟩
      · refine ih d.length (by omega) hd (θ := fun x => (η x).inst ζ) (fun k hk => ?_) rfl
        rw [← Literal.inst_inst]
        exact hin _ (hη k hk)

/-- If neither of two complementary literals can be false with the rest, the rest cannot be false.
-/
theorem Blocked.of_insert (hf : ∀ c, U c → FactorsIn U c)
    (hr : ∀ c d, U c → U d → ResolvesIn U c d) (h : Blocked U (insert l S))
    (h' : Blocked U (insert l.negate S)) : Blocked U S := by
  -- a complementary pair that needs `k` leaves the complement of `k` in the rest
  have complementary : ∀ k : Literal, (∃ m ∈ insert k S, m.negate ∈ insert k S) →
      Blocked U S ∨ k.negate ∈ S := by
    rintro k ⟨m, hm, hn⟩
    rcases hm with rfl | hm
    · exact Or.inr (hn.resolve_left Literal.negate_ne)
    · rcases hn with rfl | hn
      · exact Or.inr (by simpa using hm)
      · exact Or.inl (Or.inl ⟨m, hm, hn⟩)
  -- an instance that needs `k` uses it for one literal of its clause only
  have instances : ∀ k : Literal, Blocked U (insert k S) → Blocked U S ∨ k.negate ∈ S ∨
      ∃ c, U c ∧ ∃ (θ : String → Term) (n : Literal), n ∈ c.literals ∧ n.inst θ = k ∧
        ∀ m ∈ c.literals, m ≠ n → m.inst θ ∈ S := by
    intro k hk
    rcases hk with hk | ⟨c, hc, θ, hθ⟩
    · exact (complementary k hk).imp_right Or.inl
    · rcases exists_injective_instance hf hc hθ with hk | ⟨d, hd, η, hη, hinj⟩
      · exact (complementary k hk).imp_right Or.inl
      · by_cases hmem : ∃ n ∈ d.literals, n.inst η = k
        · obtain ⟨n, hn, hk⟩ := hmem
          refine Or.inr (Or.inr ⟨d, hd, η, n, hn, hk, fun m hm hne => ?_⟩)
          refine (hη m hm).resolve_left fun he => hne (hinj m hm n hn (he.trans hk.symm))
        · push Not at hmem
          exact Or.inl (Or.inr ⟨d, hd, η, fun m hm => (hη m hm).resolve_left (hmem m hm)⟩)
  rcases instances l h with hb | hn | ⟨c, hc, θ, n, hn, hl, hrest⟩
  · exact hb
  · rwa [Set.insert_eq_of_mem hn] at h'
  · rcases instances l.negate h' with hb | hn' | ⟨d, hd, η, m, hm, hl', hrest'⟩
    · exact hb
    · rw [Literal.negate_negate] at hn'
      rwa [Set.insert_eq_of_mem hn'] at h
    · have hcompl : m.inst η = (n.inst θ).negate := by rw [hl, hl']
      obtain ⟨e, he, ζ, hζ⟩ := (hr c d hc hd).exists_instance hn hm hcompl
      refine he.blocked (ζ := ζ) fun k hk => ?_
      rcases hζ k hk with ⟨x, hx, hne, hk⟩ | ⟨x, hx, hne, hk⟩
      · exact hk ▸ hrest x hx hne
      · exact hk ▸ hrest' x hx hne

theorem not_blocked_empty (hne : ∀ c, U c → c.literals ≠ []) : ¬ Blocked U ∅ := by
  rintro (⟨l, hl, -⟩ | ⟨c, hc, θ, hθ⟩)
  · exact hl
  · obtain ⟨l, hl⟩ := List.exists_mem_of_ne_nil _ (hne c hc)
    exact hθ l hl

/-- Finitely many literals are to blame. -/
theorem isOfFiniteCharacter_not_blocked (U : Clause → Prop) :
    Order.IsOfFiniteCharacter {S | ¬ Blocked U S} := by
  intro S
  refine ⟨fun h T hT _ hb => h ?_, fun h hb => ?_⟩
  · exact hb.imp (fun ⟨l, hl, hn⟩ => ⟨l, hT hl, hT hn⟩)
      fun ⟨c, hc, θ, hθ⟩ => ⟨c, hc, θ, fun l hl => hT (hθ l hl)⟩
  · rcases hb with ⟨l, hl, hn⟩ | ⟨c, hc, θ, hθ⟩
    · refine h {l, l.negate} ?_ (Set.toFinite _) (Or.inl ⟨l, by simp, by simp⟩)
      exact Set.insert_subset hl (Set.singleton_subset_iff.2 hn)
    · refine h {k | k ∈ c.literals.map (Literal.inst θ)} ?_ (List.finite_toSet _)
        (Or.inr ⟨c, hc, θ, fun l hl => List.mem_map_of_mem hl⟩)
      intro k hk
      obtain ⟨l, hl, rfl⟩ := List.mem_map.1 hk
      exact hθ l hl

end Clause

/-! ### The structure on terms -/

/-- Terms stand for themselves, and the literals outside the set are true. -/
def Structure.onTerms (S : Set Literal) : Structure Term where
  fn := Term.app
  rel p ts := Literal.pos ⟨p, ts⟩ ∉ S

theorem Structure.onTerms_holds {S : Set Literal} {v : String → Term}
    (hS : ∀ l, l ∈ S ↔ l.negate ∉ S) (l : Literal) :
    l.Holds (Structure.onTerms S) v ↔ l.inst v ∉ S := by
  obtain ⟨a, p⟩ := l
  have ha : a.Holds (Structure.onTerms S) v ↔ Literal.pos (a.inst v) ∉ S := Iff.rfl
  cases p with
  | true => simp [Literal.Holds, ha, Literal.inst, Literal.pos]
  | false =>
    have hneg : (⟨a.inst v, false⟩ : Literal) ∈ S ↔ Literal.pos (a.inst v) ∉ S := hS _
    simp [Literal.Holds, ha, Literal.inst, hneg]

/-- If some literals can be false for a set that is closed under factors and resolvents, then there
is a structure for the set in which they are false. -/
theorem Clause.exists_structure {U : Clause → Prop} {T : Set Literal} (hT : ¬ Blocked U T)
    (hf : ∀ c, U c → FactorsIn U c) (hr : ∀ c d, U c → U d → ResolvesIn U c d) :
    ∃ M : Structure Term, M.fn = Term.app ∧ (∀ c, U c → M.Satisfies c) ∧
      ∀ l ∈ T, ¬ l.Holds M .var := by
  -- a largest set of literals that can be false together
  obtain ⟨S, hTS, hS⟩ := (isOfFiniteCharacter_not_blocked U).exists_maximal hT
  have hfree : ¬ Blocked U S := hS.prop
  have hmax : ∀ l, l ∉ S → Blocked U (insert l S) := fun l hl => by
    by_contra hb
    exact hl (hS.le_of_ge hb (Set.subset_insert l S) (Set.mem_insert l S))
  -- exactly one of two complementary literals is in the set
  have hcompl : ∀ l, l ∈ S ↔ l.negate ∉ S := by
    intro l
    refine ⟨fun hl hn => hfree (Or.inl ⟨l, hl, hn⟩), fun hn => ?_⟩
    by_contra hl
    exact hfree ((hmax l hl).of_insert hf hr (hmax l.negate hn))
  refine ⟨Structure.onTerms S, rfl, fun c hc v => ?_, fun l hl hv => ?_⟩
  · by_contra hnone
    refine hfree (Or.inr ⟨c, hc, v, fun l hl => ?_⟩)
    by_contra hmem
    exact hnone ⟨l, hl, (Structure.onTerms_holds hcompl l).2 hmem⟩
  · rw [Structure.onTerms_holds hcompl, Literal.inst_var_eq_self] at hv
    exact hv (hTS hl)

end Elenchus

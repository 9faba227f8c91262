import Elenchus.Inference.Basic
import Elenchus.Inference.Hyperresolution
import Elenchus.Inference.UnitDeletion
import Elenchus.Proofs.Names
import Elenchus.Proofs.Structures

/-! What the inference rules can do: all that soundness and the replay of proofs need to know. -/

namespace Elenchus

universe u

/-! ### Positions -/

theorem at?_ofNat {α : Type} (l : List α) (i : Nat) : at? l (i : Int) = l[i]? := by
  simp [at?]

theorem mem_dropAt {α : Type} {positions : List Int} {l : List α} {a : α} :
    a ∈ dropAt positions l ↔ ∃ k : Nat, l[k]? = some a ∧ (k : Int) ∉ positions := by
  simp only [dropAt, List.mem_map, List.mem_filter, Prod.exists]
  simp [List.mk_mem_zipIdx_iff_getElem?]

theorem mem_of_mem_dropAt {α : Type} {positions : List Int} {l : List α} {a : α}
    (h : a ∈ dropAt positions l) : a ∈ l := by
  obtain ⟨k, hk, -⟩ := mem_dropAt.1 h
  exact List.mem_of_getElem? hk

/-- To drop what stands where `p` holds is to keep what `p` does not hold of. -/
theorem dropAt_positions {α : Type} (p : α → Bool) (l : List α) :
    dropAt (((l.zipIdx.filter fun q => p q.1).map Prod.snd).map fun (i : Nat) => (i : Int)) l =
      l.filter fun a => !p a := by
  have hcontains : ∀ q ∈ l.zipIdx,
      (!(((l.zipIdx.filter fun q => p q.1).map Prod.snd).map fun (i : Nat) =>
        (i : Int)).contains (q.2 : Int)) = !p q.1 := by
    rintro ⟨a, i⟩ hq
    rw [List.mk_mem_zipIdx_iff_getElem?] at hq
    cases ha : p a with
    | true =>
      simpa using ⟨a, List.mk_mem_zipIdx_iff_getElem?.2 hq, ha⟩
    | false =>
      simp only [List.contains_eq_mem, List.mem_map, List.mem_filter, Prod.exists,
        List.mk_mem_zipIdx_iff_getElem?, Bool.not_false, Bool.not_eq_true', decide_eq_false_iff_not]
      rintro ⟨_, ⟨b, j, ⟨hb, hp⟩, rfl⟩, he⟩
      have hji : j = i := Int.ofNat.inj he
      have hba : b = a := Option.some.inj (hb.symm.trans (hji ▸ hq))
      simp [hba, ha] at hp
  rw [dropAt, List.filter_congr hcontains]
  have hmap : l.zipIdx.map Prod.fst = l := List.zipIdx_map_fst 0 l
  conv_rhs => rw [← hmap, List.filter_map]
  rfl

theorem Structure.Satisfies.exists_position {D : Type u} {M : Structure D} {v : String → D}
    {c : Clause} (h : M.Satisfies c) (σ : Subst) :
    ∃ (k : Nat) (l : Literal), c.literals[k]? = some l ∧ (l.subst σ).Holds M v := by
  obtain ⟨l, hl, hv⟩ := h fun x => (σ.value x).eval M.fn v
  obtain ⟨k, hk⟩ := List.mem_iff_getElem?.1 hl
  exact ⟨k, l, hk, Literal.holds_subst.2 hv⟩

namespace Inference

/-- A literal that goes because of a unit clause. -/
structure Removal where
  position : Nat
  unit : Filed
  renamed : Subst

/-- Under `σ` the renamed unit is the complement of the literal. -/
def Removal.Refutes (σ : Subst) (c : Clause) (x : Removal) : Prop :=
  ∃ l m, c.literals[x.position]? = some l ∧ x.unit.clause.literals = [m] ∧
    (m.subst x.renamed).subst σ = (l.subst σ).negate

/-- The forms that inferred clauses have, with their parents. -/
inductive Inferred : List Filed → Derived → Prop
  | resolvent {given partner : Filed} {i j : Nat} {l m : Literal} {ρ σ : Subst} {depth : Item}
      (hl : given.clause.literals[i]? = some l) (hm : partner.clause.literals[j]? = some m)
      (hσ : (m.subst ρ).subst σ = (l.subst σ).negate) :
      Inferred [given, partner]
        { clause := .ofList ((dropAt [(i : Int)] given.clause.literals ++
            dropAt [(j : Int)] (partner.clause.literals.map (Literal.subst ρ))).map
              (Literal.subst σ))
          derivation := some
            { rule := .str resolutionRule
              parents := [.int given.id, .int partner.id]
              unifier := some (.ofSubst σ)
              partnerRenaming := some (.ofSubst ρ)
              indices := [.int i, .int j]
              depth } }
  | factor {c : Filed} {i j : Nat} {l m : Literal} {σ : Subst} {depth : Item} (hij : i ≠ j)
      (hl : c.clause.literals[i]? = some l) (hm : c.clause.literals[j]? = some m)
      (hσ : m.subst σ = l.subst σ) :
      Inferred [c]
        { clause := .ofList ((dropAt [(j : Int)] c.clause.literals).map (Literal.subst σ))
          derivation := some
            { rule := .str factoringRule
              parents := [.int c.id]
              unifier := some (.ofSubst σ)
              indices := [.int i, .int j]
              depth } }
  | unitResolvent {c : Filed} {xs : List Removal} {σ : Subst} {rule : String} {depth : Item}
      (hrule : rule = hyperresolutionRule ∨ rule = unitDeletionRule) (hne : xs ≠ [])
      (hxs : ∀ x ∈ xs, x.Refutes σ c.clause) :
      Inferred (c :: xs.map Removal.unit)
        { clause := .ofList ((dropAt (xs.map fun x => (x.position : Int)) c.clause.literals).map
            (Literal.subst σ))
          derivation := some
            { rule := .str rule
              parents := .int c.id :: xs.map fun x => .int x.unit.id
              unifier := some (.ofSubst σ)
              renamings := xs.map fun x => .ofSubst x.renamed
              indices := xs.map fun x => .int x.position
              depth } }

section
variable {ps : List Filed} {d : Derived} {D : Type u} {M : Structure D}

theorem Inferred.sound (h : Inferred ps d) (hps : ∀ p ∈ ps, M.Satisfies p.clause) :
    M.Satisfies d.clause := by
  intro v
  cases h with
  | @resolvent given partner i j l m ρ σ _ hl hm hσ =>
    obtain ⟨k, l', hk, hv⟩ := (hps given (by simp)).exists_position (v := v) σ
    by_cases hki : k = i
    · -- the resolved literal holds, so another literal of the partner does
      have hll : l' = l := Option.some.inj (hk.symm.trans (hki ▸ hl))
      subst hll
      obtain ⟨n, m', hn, hv'⟩ := (hps partner (by simp)).exists_position
        (v := fun x => (σ.value x).eval M.fn v) ρ
      rw [← Literal.holds_subst] at hv'
      have hnj : n ≠ j := by
        rintro rfl
        have hmm : m' = m := Option.some.inj (hn.symm.trans hm)
        rw [hmm, hσ] at hv'
        exact Literal.holds_negate.1 hv' hv
      refine ⟨_, Clause.mem_ofList.2 (List.mem_map_of_mem (List.mem_append_right _ ?_)), hv'⟩
      exact mem_dropAt.2 ⟨n, by simp [hn], by simpa using hnj⟩
    · refine ⟨_, Clause.mem_ofList.2 (List.mem_map_of_mem (List.mem_append_left _ ?_)), hv⟩
      exact mem_dropAt.2 ⟨k, hk, by simpa using hki⟩
  | @factor c i j l m σ _ hij hl hm hσ =>
    obtain ⟨k, l', hk, hv⟩ := (hps c (by simp)).exists_position (v := v) σ
    by_cases hkj : k = j
    · have hmm : l' = m := Option.some.inj (hk.symm.trans (hkj ▸ hm))
      rw [hmm, hσ] at hv
      refine ⟨_, Clause.mem_ofList.2 (List.mem_map_of_mem ?_), hv⟩
      exact mem_dropAt.2 ⟨i, hl, by simpa using hij⟩
    · refine ⟨_, Clause.mem_ofList.2 (List.mem_map_of_mem ?_), hv⟩
      exact mem_dropAt.2 ⟨k, hk, by simpa using hkj⟩
  | @unitResolvent c xs σ _ _ _ _ hxs =>
    obtain ⟨k, l', hk, hv⟩ := (hps c (by simp)).exists_position (v := v) σ
    by_cases hmem : (k : Int) ∈ xs.map fun x => (x.position : Int)
    · exfalso
      obtain ⟨x, hx, he⟩ := List.mem_map.1 hmem
      have hpos : x.position = k := Int.ofNat.inj he
      obtain ⟨l, m, hl, hm, hσ⟩ := hxs x hx
      have hll : l' = l := Option.some.inj (hk.symm.trans (hpos ▸ hl))
      obtain ⟨n, m', hn, hv'⟩ := (hps x.unit (by simp; grind)).exists_position
        (v := fun y => (σ.value y).eval M.fn v) x.renamed
      rw [← Literal.holds_subst] at hv'
      have hmm : m' = m := by
        have := List.mem_of_getElem? hn
        simpa [hm] using this
      rw [hmm, hσ] at hv'
      exact Literal.holds_negate.1 hv' (hll ▸ hv)
    · refine ⟨_, Clause.mem_ofList.2 (List.mem_map_of_mem ?_), hv⟩
      exact mem_dropAt.2 ⟨k, hk, hmem⟩

/-- Inferences bring in no new predicates. -/
theorem Inferred.predicate_mem (h : Inferred ps d) {l : Literal} (hl : l ∈ d.clause.literals) :
    ∃ p ∈ ps, ∃ m ∈ p.clause.literals, l.atom.predicate = m.atom.predicate := by
  cases h with
  | @resolvent given partner _ _ _ _ _ _ _ _ _ _ =>
    obtain ⟨m, hm, rfl⟩ := List.mem_map.1 (Clause.mem_ofList.1 hl)
    rcases List.mem_append.1 hm with hm | hm
    · exact ⟨given, by simp, m, mem_of_mem_dropAt hm, Atom.predicate_subst _⟩
    · obtain ⟨n, hn, rfl⟩ := List.mem_map.1 (mem_of_mem_dropAt hm)
      exact ⟨partner, by simp, n, hn, (Atom.predicate_subst _).trans (Atom.predicate_subst _)⟩
  | @factor c _ _ _ _ _ _ _ _ _ _ | @unitResolvent c _ _ _ _ _ _ _ =>
    obtain ⟨m, hm, rfl⟩ := List.mem_map.1 (Clause.mem_ofList.1 hl)
    exact ⟨c, by simp, m, mem_of_mem_dropAt hm, Atom.predicate_subst _⟩

end

end Inference

/-! ### Names in new clauses -/

namespace Renamer

variable {r r' : Renamer} {σ τ : Subst} {l : Literal} {c : Clause}

/-- No variable of the literal may still be handed out. -/
def ClearLiteral (r : Renamer) (l : Literal) : Prop := ∀ x ∈ l.vars, r.Avoids x

/-- No variable of the clause may still be handed out. -/
def Clear (r : Renamer) (c : Clause) : Prop := ∀ l ∈ c.literals, r.ClearLiteral l

theorem ClearLiteral.mono (h : r.ClearLiteral l) (hr : r.Precedes r') : r'.ClearLiteral l :=
  fun x hx => (h x hx).mono hr

theorem Clear.mono (h : r.Clear c) (hr : r.Precedes r') : r'.Clear c :=
  fun l hl => (h l hl).mono hr

/-- The substitution keeps to names that have been handed out. -/
structure Tidy (r : Renamer) (σ : Subst) : Prop where
  closed : ∀ x, r.Avoids x → ∀ y ∈ (σ.value x).vars, r.Avoids y
  fixed : ∀ x, ¬ r.Avoids x → σ.value x = .var x

theorem tidy_empty (r : Renamer) : r.Tidy .empty :=
  ⟨fun x hx y hy => by simp_all, fun _ _ => rfl⟩

theorem Tidy.clearLiteral (h : r.Tidy σ) (hl : r.ClearLiteral l) : r.ClearLiteral (l.subst σ) := by
  intro y hy
  rw [Literal.subst_eq_inst, Literal.mem_vars_inst] at hy
  obtain ⟨x, hx, hy⟩ := hy
  exact h.closed x (hl x hx) y hy

theorem Tidy.clear_ofList (h : r.Tidy σ) {ls : List Literal} (hls : ∀ l ∈ ls, r.ClearLiteral l) :
    r.Clear (.ofList (ls.map (Literal.subst σ))) := by
  intro l hl
  obtain ⟨m, hm, rfl⟩ := List.mem_map.1 (Clause.mem_ofList.1 hl)
  exact h.clearLiteral (hls m hm)

theorem Tidy.mono (h : r.Tidy σ) (hr : r.Precedes r') : r'.Tidy σ := by
  refine ⟨fun x hx y hy => ?_, fun x hx => h.fixed x fun ha => hx (ha.mono hr)⟩
  by_cases ha : r.Avoids x
  · exact (h.closed x ha y hy).mono hr
  · rw [h.fixed x ha, Term.vars_var, List.mem_singleton] at hy
    exact hy ▸ hx

/-- Solving an equation between clear literals keeps a substitution tidy. -/
theorem Tidy.solves {m : Literal} (h : r.Tidy σ)
    (hτ : Subst.Solves σ τ [(l.atom.term, m.atom.term)]) (hl : r.ClearLiteral l)
    (hm : r.ClearLiteral m) : r.Tidy τ := by
  have hl' := h.clearLiteral hl
  have hm' := h.clearLiteral hm
  have hes : ∀ e ∈ [(l.atom.term, m.atom.term)], (∀ y ∈ (e.1.subst σ).vars, r.Avoids y) ∧
      ∀ y ∈ (e.2.subst σ).vars, r.Avoids y := by
    simp only [List.mem_singleton, forall_eq, ← Atom.term_subst, Atom.vars_term]
    exact ⟨hl', hm'⟩
  refine ⟨fun x hx => hτ.vars _ hes x (h.closed x hx), fun x hx => ?_⟩
  refine hτ.value_eq_self (h.fixed x hx) fun e he => ?_
  exact ⟨fun hy => hx ((hes e he).1 x hy), fun hy => hx ((hes e he).2 x hy)⟩

/-- A renamed copy of a clause has only names that were not handed out before. -/
theorem Renamed.vars_literal {ρ : Subst} {xs : List String} {y : String} (h : Renamed r r' xs ρ)
    (hl : ∀ x ∈ l.vars, x ∈ xs) (hy : y ∈ (l.subst ρ).vars) : ¬ r.Avoids y ∧ r'.Avoids y := by
  rw [Literal.subst_eq_inst, Literal.mem_vars_inst] at hy
  obtain ⟨x, hx, hy⟩ := hy
  obtain ⟨z, hz, hfresh⟩ := h.fresh x (hl x hx)
  rw [hz, Term.vars_var, List.mem_singleton] at hy
  exact hy ▸ hfresh

/-- A renamed copy has the instances of what it is a copy of. -/
theorem Renamed.exists_inst {ρ : Subst} {xs : List String} (h : Renamed r r' xs ρ)
    (hl : ∀ x ∈ l.vars, x ∈ xs) (θ : String → Term) :
    ∃ η : String → Term, (l.subst ρ).inst η = l.inst θ := by
  classical
  refine ⟨fun y => if hy : ∃ x ∈ xs, ρ.value x = .var y then θ hy.choose else .var y, ?_⟩
  rw [Literal.subst_eq_inst, Literal.inst_inst]
  refine Literal.inst_congr fun x hx => ?_
  obtain ⟨y, hy, -⟩ := h.fresh x (hl x hx)
  have hex : ∃ x ∈ xs, ρ.value x = .var y := ⟨x, hl x hx, hy⟩
  rw [hy, Term.inst_var, dif_pos hex]
  exact congrArg θ (h.injective _ hex.choose_spec.1 x (hl x hx) (hex.choose_spec.2.trans hy.symm))

end Renamer

end Elenchus

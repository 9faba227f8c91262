import Elenchus.Proofs.Acceptance

/-!
Clauses as formulas: their normal form is the clause again, with its variables renamed apart.
-/

namespace Elenchus

variable {sig sig' : Signature} {f g : Formula} {ls ms : List Literal} {xs : List String}

/-! ### Renamings -/

/-- A renaming that does not identify variables does not identify literals. -/
theorem Literal.inst_var_injective {ρ : String → String} {l m : Literal}
    (hρ : ∀ x ∈ xs, ∀ y ∈ xs, ρ x = ρ y → x = y) (hl : ∀ x ∈ l.vars, x ∈ xs)
    (hm : ∀ x ∈ m.vars, x ∈ xs) (h : l.inst (fun x => .var (ρ x)) = m.inst fun x => .var (ρ x)) :
    l = m := by
  have hback : ∃ ψ : String → String, ∀ x ∈ xs, ψ (ρ x) = x :=
    ⟨Function.invFunOn ρ {x | x ∈ xs}, fun x hx =>
      Set.InjOn.leftInvOn_invFunOn (fun a ha b hb => hρ a ha b hb) hx⟩
  obtain ⟨ψ, hψ⟩ := hback
  have hundo : ∀ k : Literal, (∀ x ∈ k.vars, x ∈ xs) →
      (k.inst fun x => .var (ρ x)).inst (fun x => .var (ψ x)) = k := by
    intro k hk
    rw [inst_inst]
    exact (inst_congr fun x hx => congrArg Term.var (hψ x (hk x hx))).trans (inst_var_eq_self k)
  rw [← hundo l hl, h, hundo m hm]

namespace Formula

/-- After `sig` has handed out names, the renaming gives different variables different names. -/
structure Distinguishes (ρ : List (String × String)) (xs : List String) (sig : Signature) :
    Prop where
  numbered : ∀ x ∈ xs, Numbered 0 sig.variableCounter (renamed ρ x)
  injective : ∀ x ∈ xs, ∀ y ∈ xs, renamed ρ x = renamed ρ y → x = y

/-- A name that is handed out next is none of those before. -/
theorem Distinguishes.cons {ρ : List (String × String)} (h : Distinguishes ρ xs sig) (x : String) :
    Distinguishes ((x, (sig.freshVariable x).1) :: ρ) (x :: xs) (sig.freshVariable x).2 := by
  have hfresh := numbered_fresh sig x
  have hne : ∀ y ∈ xs, renamed ρ y ≠ (sig.freshVariable x).1 := fun y hy =>
    (h.numbered y hy).ne hfresh (Nat.le_refl _)
  constructor
  · intro y hy
    rw [renamed_cons]
    split
    · exact hfresh.mono (Nat.zero_le _) (Nat.le_refl _)
    · next hyx =>
      have hy : y ∈ xs := (List.mem_cons.1 hy).resolve_left hyx
      exact (h.numbered y hy).mono (Nat.le_refl _) (Nat.le_succ _)
  · intro y hy z hz
    rw [renamed_cons, renamed_cons]
    split
    · next hyx =>
      split
      · next hzx => exact fun _ => hyx.trans hzx.symm
      · next hzx =>
        intro heq
        exact absurd heq.symm (hne z ((List.mem_cons.1 hz).resolve_left hzx))
    · next hyx =>
      have hy : y ∈ xs := (List.mem_cons.1 hy).resolve_left hyx
      split
      · next hzx => exact fun heq => absurd heq (hne y hy)
      · next hzx => exact h.injective y hy z ((List.mem_cons.1 hz).resolve_left hzx)

/-! ### Disjunctions of literals -/

/-- A disjunction of literals, which stand in it from left to right. -/
inductive IsDisjunction : List Literal → Formula → Prop
  | literal (l : Literal) : IsDisjunction [l] l.formula
  | or {ls ms : List Literal} {f g : Formula} (hf : IsDisjunction ls f) (hg : IsDisjunction ms g) :
      IsDisjunction (ls ++ ms) (.or f g)

theorem IsDisjunction.foldl_or (hf : IsDisjunction ls f) (ms : List Literal) :
    IsDisjunction (ls ++ ms) ((ms.map Literal.formula).foldl .or f) := by
  induction ms generalizing ls f with
  | nil => simpa using hf
  | cons m ms ih => simpa using ih (hf.or (.literal m))

theorem exists_disjunction (h : ls ≠ []) :
    ∃ f, disjunction? (ls.map Literal.formula) = some f ∧ IsDisjunction ls f := by
  cases ls with
  | nil => exact absurd rfl h
  | cons l ls => exact ⟨_, rfl, (IsDisjunction.literal l).foldl_or ls⟩

theorem IsDisjunction.pushNegations (h : IsDisjunction ls f) : f.pushNegations false = f := by
  induction h with
  | literal l =>
    rw [Literal.formula]
    split <;> rfl
  | or _ _ ihf ihg => rw [Formula.pushNegations, ihf, ihg]

theorem IsDisjunction.standardizeFrom (h : IsDisjunction ls f) (ρ : List (String × String))
    (sig : Signature) :
    ∃ f', f.standardizeFrom ρ sig = (f', sig) ∧
      IsDisjunction (ls.map (Literal.inst fun x => .var (renamed ρ x))) f' := by
  induction h with
  | literal l =>
    refine ⟨_, ?_, .literal _⟩
    obtain ⟨a, positive⟩ := l
    cases positive <;>
      simp [Literal.formula, Literal.inst, Formula.standardizeFrom, rename_atom]
  | or _ _ ihf ihg =>
    obtain ⟨f', hf, hdf⟩ := ihf
    obtain ⟨g', hg, hdg⟩ := ihg
    refine ⟨.or f' g', ?_, ?_⟩
    · simp only [Formula.standardizeFrom, hf, hg]
    · rw [List.map_append]
      exact hdf.or hdg

theorem IsDisjunction.skolemizeFrom (h : IsDisjunction ls f) (scope : List Binder)
    (sig : Signature) : f.skolemizeFrom scope .empty sig = (f, sig) := by
  induction h with
  | literal l =>
    rw [Literal.formula]
    split <;> simp [Formula.skolemizeFrom, Atom.subst_empty]
  | or _ _ ihf ihg => simp only [Formula.skolemizeFrom, ihf, ihg]

theorem IsDisjunction.conjuncts_matrix (h : IsDisjunction ls f) : f.matrix.conjuncts = [ls] := by
  induction h with
  | literal l =>
    obtain ⟨a, positive⟩ := l
    cases positive <;> rfl
  | or _ _ ihf ihg => simp [matrix, conjuncts, ihf, ihg]

theorem IsDisjunction.atoms (h : IsDisjunction ls f) : f.atoms = ls.map Literal.atom := by
  induction h with
  | literal l =>
    rw [Literal.formula]
    split <;> rfl
  | or _ _ ihf ihg => rw [Formula.atoms, ihf, ihg, List.map_append]

theorem IsDisjunction.freeVars (h : IsDisjunction ls f) : f.freeVars = ls.flatMap Literal.vars := by
  induction h with
  | literal l =>
    rw [Literal.formula]
    split <;> simp [Formula.freeVars, Literal.vars]
  | or _ _ ihf ihg => rw [Formula.freeVars, ihf, ihg, List.flatMap_append]

theorem IsDisjunction.faults (h : IsDisjunction ls f) :
    f.freeVarsFault = none ∧ f.namingFault = none := by
  induction h with
  | literal l =>
    rw [Literal.formula]
    split <;> exact ⟨rfl, rfl⟩
  | or _ _ ihf ihg => simp [freeVarsFault, namingFault, ihf, ihg]

/-! ### Clausal formulas -/

/-- A disjunction of literals below universal quantifiers. -/
inductive IsClausal : List String → List Literal → Formula → Prop
  | disjunction {ls : List Literal} {f : Formula} (h : IsDisjunction ls f) : IsClausal [] ls f
  | all {xs : List String} {ls : List Literal} {f : Formula} (x : String)
      (h : IsClausal xs ls f) : IsClausal (x :: xs) ls (.all (.var x) f)

theorem IsDisjunction.isClausal_foldr (h : IsDisjunction ls f) (xs : List String) :
    IsClausal xs ls (xs.foldr (fun x g => .all (.var x) g) f) := by
  induction xs with
  | nil => exact .disjunction h
  | cons x xs ih => exact .all x ih

/-- A closed formula is its own closure. -/
theorem closure_eq_self (h : f.freeVars = []) : f.closure = f := by
  have hnone : f.freeVarsInOrder = [] := by
    rw [List.eq_nil_iff_forall_not_mem]
    intro x hx
    simp [mem_freeVarsInOrder, h] at hx
  rw [closure, hnone]
  rfl

theorem IsClausal.pushNegations (h : IsClausal xs ls f) : f.pushNegations false = f := by
  induction h with
  | disjunction h => exact h.pushNegations
  | all x _ ih => rw [Formula.pushNegations, ih]

theorem standardizeFrom_all (ρ : List (String × String)) (x : String) (f : Formula)
    (sig : Signature) : (Formula.all (.var x) f).standardizeFrom ρ sig =
      (.all (.var (sig.freshVariable x).1)
          (f.standardizeFrom ((x, (sig.freshVariable x).1) :: ρ) (sig.freshVariable x).2).1,
        (f.standardizeFrom ((x, (sig.freshVariable x).1) :: ρ) (sig.freshVariable x).2).2) :=
  rfl

/-- Each quantifier gets the next name, and the literals are renamed accordingly. -/
theorem IsClausal.standardizeFrom (h : IsClausal xs ls f) {ρ : List (String × String)}
    {zs : List String} (hρ : Distinguishes ρ zs sig) :
    ∃ f' ρ' ys, f.standardizeFrom ρ sig =
        (f', { sig with variableCounter := sig.variableCounter + xs.length }) ∧
      IsClausal ys (ls.map (Literal.inst fun x => .var (renamed ρ' x))) f' ∧
      ∀ x ∈ xs ++ zs, ∀ y ∈ xs ++ zs, renamed ρ' x = renamed ρ' y → x = y := by
  induction h generalizing ρ zs sig with
  | disjunction h =>
    obtain ⟨f', hf, hd⟩ := h.standardizeFrom ρ sig
    exact ⟨f', ρ, [], hf, .disjunction hd, hρ.injective⟩
  | @all xs ls f x _ ih =>
    obtain ⟨f', ρ', ys, hf, hc, hinj⟩ := ih (hρ.cons x)
    refine ⟨_, ρ', (sig.freshVariable x).1 :: ys, ?_, .all _ hc, fun y hy z hz => ?_⟩
    · have hcount : (sig.freshVariable x).2.variableCounter + xs.length =
          sig.variableCounter + (xs.length + 1) := by
        change sig.variableCounter + 1 + xs.length = _
        omega
      rw [hcount] at hf
      rw [standardizeFrom_all, hf]
      rfl
    · have hperm : ∀ w, w ∈ x :: xs ++ zs → w ∈ xs ++ x :: zs := by
        intro w hw
        simp only [List.cons_append, List.mem_cons, List.mem_append] at hw ⊢
        tauto
      exact hinj y (hperm y hy) z (hperm z hz)

theorem IsClausal.skolemizeFrom (h : IsClausal xs ls f) (scope : List Binder)
    (sig : Signature) : f.skolemizeFrom scope .empty sig = (f, sig) := by
  induction h generalizing scope with
  | disjunction h => exact h.skolemizeFrom scope sig
  | all x _ ih => simp only [Formula.skolemizeFrom, ih]

theorem IsClausal.conjuncts_matrix (h : IsClausal xs ls f) : f.matrix.conjuncts = [ls] := by
  induction h with
  | disjunction h => exact h.conjuncts_matrix
  | all x _ ih => exact ih

theorem IsClausal.faults (h : IsClausal xs ls f) :
    f.freeVarsFault = none ∧ f.namingFault = none := by
  induction h with
  | disjunction h => exact h.faults
  | all x _ ih =>
    simp [freeVarsFault, namingFault, Binder.name?, binderMisshape, Binder.isRemovable,
      Binder.item, Item.isKey, ih]

/-- The clauses of a closed clausal formula. -/
theorem IsClausal.clauses (h : IsClausal xs ls f) (hclosed : f.freeVars = []) (sig : Signature) :
    ∃ ρ : String → String, (∀ x ∈ xs, ∀ y ∈ xs, ρ x = ρ y → x = y) ∧
      f.clauses sig = ([.ofList (ls.map (Literal.inst fun x => .var (ρ x)))],
        { sig with variableCounter := sig.variableCounter + xs.length }) := by
  have hnone : Distinguishes [] [] sig := ⟨by simp, by simp⟩
  obtain ⟨f', ρ', ys, hf, hc, hinj⟩ := h.standardizeFrom hnone
  refine ⟨renamed ρ', by simpa using hinj, ?_⟩
  simp only [Formula.clauses, closure_eq_self hclosed, nnf, h.pushNegations, standardize, hf,
    skolemize, hc.skolemizeFrom, hc.conjuncts_matrix, List.map_cons, List.map_nil, dropAlike,
    List.filter_nil]

end Formula

namespace Clause

variable {c : Clause}

/-- The formula of a clause quantifies over the variables of the clause. -/
theorem exists_formula (h : c.literals ≠ []) :
    ∃ g, c.formula? = .ok g ∧ Formula.IsClausal c.vars c.literals g ∧ g.freeVars = [] := by
  obtain ⟨f, hf, hd⟩ := Formula.exists_disjunction h
  have hvars : f.freeVarsInOrder = c.vars := by
    have hatoms : f.atoms.flatMap Atom.vars = c.literals.flatMap Literal.vars := by
      rw [hd.atoms, List.flatMap_map]
      rfl
    rw [Formula.freeVarsInOrder, hatoms, hd.freeVars]
    refine List.filter_eq_self.2 fun x hx => ?_
    rw [List.contains_iff_mem]
    exact List.mem_eraseDups.1 hx
  refine ⟨f.closure, ?_, ?_, Formula.freeVars_closure f⟩
  · rw [Clause.formula?, hf]
  · rw [Formula.closure, hvars]
    exact hd.isClausal_foldr c.vars

end Clause

namespace Signature

/-- A clause keeps all its literals under a renaming that keeps its variables apart. -/
theorem literals_ofList_renamed {c : Clause} {ρ : String → String}
    (hρ : ∀ x ∈ c.vars, ∀ y ∈ c.vars, ρ x = ρ y → x = y) :
    (Clause.ofList (c.literals.map (Literal.inst fun x => .var (ρ x)))).literals =
      c.literals.map (Literal.inst fun x => .var (ρ x)) := by
  have hvars : ∀ l ∈ c.literals, ∀ x ∈ l.vars, x ∈ c.vars := fun l hl x hx =>
    Clause.mem_vars.2 ⟨l, hl, hx⟩
  refine Clause.literals_ofList (c.nodup.map_on ?_)
  intro l hl m hm heq
  exact Literal.inst_var_injective hρ (hvars l hl) (hvars m hm) heq

/-- Where the check is passed, or not made, the clauses are those of the formula. -/
theorem normalize_eq_of_accepted {o : NormalFormOptions}
    (hfree : f.freeVarsFault = none) (hnaming : f.namingFault = none)
    (hcheck : o.check = true → (sig.check o.allowReserved o.arities f).2 = none) :
    sig.normalize o f =
      (.ok ((f.clauses (if o.check then (sig.check o.allowReserved o.arities f).1 else sig)).1.map
          (⟨·, some (.premise o.source o.role o.rule)⟩)),
        (f.clauses (if o.check then (sig.check o.allowReserved o.arities f).1 else sig)).2) := by
  have hunchecked : ∀ sig : Signature, sig.normalizeUnchecked o f =
      (.ok ((f.clauses sig).1.map (⟨·, some (.premise o.source o.role o.rule)⟩)),
        (f.clauses sig).2) := by
    intro sig
    rw [normalizeUnchecked, hfree, hnaming]
    rfl
  have hchecked : sig.normalizeChecked o f = normalizeUnchecked
      (if o.check then (sig.check o.allowReserved o.arities f).1 else sig) o f := by
    rw [normalizeChecked]
    cases ho : o.check with
    | false => rfl
    | true =>
      have hnone := hcheck ho
      simp only [if_true]
      split
      · next heq => simp [heq] at hnone
      · next heq => rw [heq]
  rw [normalize.eq_def]
  split
  · cases hfree
  · rw [hchecked, hunchecked]

/-- The normal form of the formula of a clause is the clause under new names. It is the only one,
keeps its literals and their order, and what the table gets to know is what the check records. -/
theorem normalize_clause {c : Clause} (hc : c.literals ≠ []) :
    ∃ g, c.formula? = .ok g ∧ ∀ (sig : Signature) (o : NormalFormOptions),
      (o.check = true → (sig.check o.allowReserved o.arities g).2 = none) →
      ∃ (d : Derived) (sig' : Signature) (ρ : String → String),
        sig.normalize o g = (.ok [d], sig') ∧
        (∀ x ∈ c.vars, ∀ y ∈ c.vars, ρ x = ρ y → x = y) ∧
        d.clause.literals = c.literals.map (Literal.inst fun x => .var (ρ x)) ∧
        sig' = { (if o.check then (sig.check o.allowReserved o.arities g).1 else sig) with
          variableCounter := sig.variableCounter + c.vars.length } ∧
        sig'.skolems = sig.skolems ∧ sig'.skolemCounter = sig.skolemCounter := by
  obtain ⟨g, hg, hclausal, hclosed⟩ := c.exists_formula hc
  refine ⟨g, hg, fun sig o hcheck => ?_⟩
  obtain ⟨hfree, hnaming⟩ := hclausal.faults
  have hnormal := normalize_eq_of_accepted hfree hnaming hcheck
  generalize htable : (if o.check then (sig.check o.allowReserved o.arities g).1 else sig) = table
    at hnormal ⊢
  obtain ⟨ρ, hρ, hclauses⟩ := hclausal.clauses hclosed table
  -- the check adds symbols and leaves the counters and the Skolem symbols alone
  have hadds : ∃ added, table = { sig with symbols := sig.symbols ++ added } := by
    cases ho : o.check with
    | false => exact ⟨[], by simp [← htable, ho]⟩
    | true =>
      obtain ⟨-, hrec, -⟩ := check_eq_none_iff.1 (Prod.ext rfl (hcheck ho))
      obtain ⟨added, heq, -⟩ := record_adds hrec
      exact ⟨added, by rw [← htable, ho]; exact heq⟩
  obtain ⟨added, rfl⟩ := hadds
  rw [hclauses] at hnormal
  exact ⟨_, _, ρ, hnormal, hρ, literals_ofList_renamed hρ, rfl, rfl, rfl⟩

/-- Literals that differ only in variables whose names differ only in numbers. -/
def swapped : Clause := .ofList
  [.pos ⟨"less", [.var "x2", .var "x1"]⟩, .pos ⟨"less", [.var "x1", .var "x2"]⟩,
    .neg ⟨"less", [.var "x_", .var "x_"]⟩]

-- the new names are old ones in other places
theorem normalize_clause_swapped :
    swapped.literals ≠ [] ∧ ∃ g d sig', swapped.formula? = .ok g ∧
      (Signature.check {} false [] g).2 = none ∧
      Signature.normalize {} {} g = (.ok [d], sig') ∧
      d.clause.literals =
        [.pos ⟨"less", [.var "x1", .var "x2"]⟩, .pos ⟨"less", [.var "x2", .var "x1"]⟩,
          .neg ⟨"less", [.var "x3", .var "x3"]⟩] ∧
      sig'.variableCounter = 3 ∧ sig'.skolems = [] := by
  have hne : swapped.literals ≠ [] := by decide
  obtain ⟨g, hg, hnormal⟩ := normalize_clause hne
  have hcheck : ∀ g, swapped.formula? = .ok g → (Signature.check {} false [] g).2 = none := by
    rintro g ⟨⟩
    exact Option.isNone_iff_eq_none.1 (by decide +kernel)
  have hliterals : ∀ g, swapped.formula? = .ok g →
      (Signature.normalize {} {} g).1.toOption.map (fun ds => ds.map fun d => d.clause.literals) =
        some [[.pos ⟨"less", [.var "x1", .var "x2"]⟩, .pos ⟨"less", [.var "x2", .var "x1"]⟩,
          .neg ⟨"less", [.var "x3", .var "x3"]⟩]] := by
    rintro g ⟨⟩
    decide +kernel
  obtain ⟨d, sig', ρ, hd, -, -, rfl, hskolems, -⟩ := hnormal {} {} fun _ => hcheck g hg
  have hd' := hliterals g hg
  rw [hd] at hd'
  have hcount : 0 + swapped.vars.length = 3 := by decide +kernel
  exact ⟨hne, g, d, _, hg, hcheck g hg, hd, by simpa [Except.toOption] using hd', hcount, hskolems⟩

end Signature

end Elenchus

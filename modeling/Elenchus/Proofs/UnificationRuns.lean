import Elenchus.Proofs.Literals

/-! How unification goes, call by call and without a bound on its depth. -/

namespace Elenchus

namespace Subst

variable {σ τ υ : Subst} {s t : Term} {ss ts : List Term} {r : Option Subst} {V : Finset String}
  {x : String} {a b : Atom}

mutual
/-- Unification of `s` and `t` under `σ`, with the occurs check, comes to `r`. A derivation is the
tree of the calls, so there are finitely many. -/
inductive Returns : Subst → Term → Term → Option Subst → Prop
  | equal {σ : Subst} {s t : Term} (h : s.subst σ = t.subst σ) : Returns σ s t (some σ)
  | bindLeft {σ : Subst} {s t : Term} {x : String} (hs : s.subst σ = .var x)
      (hx : x ∉ (t.subst σ).vars) : Returns σ s t (some (σ.bind x (t.subst σ)))
  | occursLeft {σ : Subst} {s t : Term} {x : String} (hs : s.subst σ = .var x)
      (hne : s.subst σ ≠ t.subst σ) (hx : x ∈ (t.subst σ).vars) : Returns σ s t none
  | bindRight {σ : Subst} {s t : Term} {f y : String} {ss : List Term}
      (hs : s.subst σ = .app f ss) (ht : t.subst σ = .var y) (hy : y ∉ (s.subst σ).vars) :
      Returns σ s t (some (σ.bind y (s.subst σ)))
  | occursRight {σ : Subst} {s t : Term} {f y : String} {ss : List Term}
      (hs : s.subst σ = .app f ss) (ht : t.subst σ = .var y) (hy : y ∈ (s.subst σ).vars) :
      Returns σ s t none
  | clash {σ : Subst} {s t : Term} {f g : String} {ss ts : List Term}
      (hs : s.subst σ = .app f ss) (ht : t.subst σ = .app g ts) (hfg : f ≠ g) : Returns σ s t none
  | args {σ : Subst} {s t : Term} {f : String} {ss ts : List Term} {r : Option Subst}
      (hs : s.subst σ = .app f ss) (ht : t.subst σ = .app f ts) (hne : ss ≠ ts)
      (h : ReturnsList σ ss ts r) : Returns σ s t r

/-- The same for lists, which are unified position by position. -/
inductive ReturnsList : Subst → List Term → List Term → Option Subst → Prop
  | nil {σ : Subst} : ReturnsList σ [] [] (some σ)
  | leftEnds {σ : Subst} {t : Term} {ts : List Term} : ReturnsList σ [] (t :: ts) none
  | rightEnds {σ : Subst} {s : Term} {ss : List Term} : ReturnsList σ (s :: ss) [] none
  | fail {σ : Subst} {s t : Term} {ss ts : List Term} (h : Returns σ s t none) :
      ReturnsList σ (s :: ss) (t :: ts) none
  | next {σ τ : Subst} {s t : Term} {ss ts : List Term} {r : Option Subst}
      (h : Returns σ s t (some τ)) (hrest : ReturnsList τ ss ts r) :
      ReturnsList σ (s :: ss) (t :: ts) r
end

/-! ### Enough depth -/

theorem unifyListWith_mono {u v : Subst → Term → Term → Option Subst}
    (huv : ∀ σ s t τ, u σ s t = some τ → v σ s t = some τ)
    (h : unifyListWith u σ ss ts = some τ) : unifyListWith v σ ss ts = some τ := by
  induction ss generalizing σ ts with
  | nil =>
    cases ts with
    | nil => exact h
    | cons t ts => simp [unifyListWith] at h
  | cons s ss ih =>
    cases ts with
    | nil => simp [unifyListWith] at h
    | cons t ts =>
      obtain ⟨υ, h₁, h₂⟩ := Option.bind_eq_some_iff.1 h
      rw [unifyListWith, huv _ _ _ _ h₁]
      exact ih h₂

/-- A unifier that is found is found at every greater depth too. -/
theorem unifyWithin_mono {check : Bool} {m n : Nat} (hmn : m ≤ n)
    (h : unifyWithin check m σ s t = some τ) : unifyWithin check n σ s t = some τ := by
  induction m generalizing n σ s t τ with
  | zero => simp [unifyWithin] at h
  | succ m ih =>
    obtain ⟨n, rfl⟩ : ∃ k, n = k + 1 := ⟨n - 1, by omega⟩
    have hlist : ∀ ss ts, unifyListWith (unifyWithin check m) σ ss ts = some τ →
        unifyListWith (unifyWithin check n) σ ss ts = some τ := fun ss ts =>
      unifyListWith_mono fun _ _ _ _ => ih (Nat.le_of_succ_le_succ hmn)
    simp only [unifyWithin] at h ⊢
    generalize s.subst σ = s' at *
    generalize t.subst σ = t' at *
    split at h
    · next he => rw [if_pos he, h]
    · next he =>
      rw [if_neg he]
      cases s' with
      | var x => exact h
      | app f ss =>
        cases t' with
        | var y => exact h
        | app g ts =>
          dsimp only at h ⊢
          split at h
          · next hf => rw [if_pos hf, hlist ss ts h]
          · simp at h

mutual
/-- Whatever a call comes to is what unification gives at every depth from some depth on. -/
theorem Returns.unifyWithin_eq {σ : Subst} {s t : Term} {r : Option Subst} :
    Returns σ s t r → ∃ n, ∀ d, n ≤ d → unifyWithin true (d + 1) σ s t = r
  | .equal h => ⟨0, fun d _ => by simp [unifyWithin, h]⟩
  | .bindLeft (x := x) hs hx => ⟨0, fun d _ => by
      have hne : Term.var x ≠ t.subst σ := fun he => hx (by simp [← he])
      simp [unifyWithin, hs, hne, Term.mentions_iff, hx]⟩
  | .occursLeft hs hne hx => ⟨0, fun d _ => by
      rw [hs] at hne
      simp [unifyWithin, hs, hne, Term.mentions_iff, hx]⟩
  | .bindRight hs ht hy => ⟨0, fun d _ => by
      rw [← Term.mentions_iff, hs] at hy
      simp [unifyWithin, hs, ht, hy]⟩
  | .occursRight hs ht hy => ⟨0, fun d _ => by
      rw [← Term.mentions_iff, hs] at hy
      simp [unifyWithin, hs, ht, hy]⟩
  | .clash hs ht hfg => ⟨0, fun d _ => by simp [unifyWithin, hs, ht, hfg]⟩
  | .args hs ht hne h => by
      obtain ⟨n, hn⟩ := h.unifyListWith_eq
      refine ⟨n, fun d hd => ?_⟩
      rw [unifyWithin]
      simp [hs, ht, hne, hn d hd]

theorem ReturnsList.unifyListWith_eq {σ : Subst} {ss ts : List Term} {r : Option Subst} :
    ReturnsList σ ss ts r →
      ∃ n, ∀ d, n ≤ d → unifyListWith (unifyWithin true d) σ ss ts = r
  | .nil => ⟨0, fun _ _ => rfl⟩
  | .leftEnds => ⟨0, fun _ _ => rfl⟩
  | .rightEnds => ⟨0, fun _ _ => rfl⟩
  | .fail h => by
      obtain ⟨n, hn⟩ := h.unifyWithin_eq
      refine ⟨n + 1, fun d hd => ?_⟩
      obtain ⟨e, rfl⟩ : ∃ e, d = e + 1 := ⟨d - 1, by omega⟩
      simp [unifyListWith, hn e (by omega)]
  | .next h hrest => by
      obtain ⟨n, hn⟩ := h.unifyWithin_eq
      obtain ⟨m, hm⟩ := hrest.unifyListWith_eq
      refine ⟨max (n + 1) m, fun d hd => ?_⟩
      obtain ⟨e, rfl⟩ : ∃ e, d = e + 1 := ⟨d - 1, by omega⟩
      simp [unifyListWith, hn e (by omega), hm (e + 1) (by omega)]
end

/-! ### Every call returns -/

/-- The values of the variables `V` have no others. -/
structure Within (V : Finset String) (σ : Subst) : Prop where
  idempotent : σ.Idempotent
  closed : ∀ x ∈ V, ∀ y ∈ (σ.value x).vars, y ∈ V

/-- `τ` is `σ`, or fewer variables are left to bind. -/
structure Advances (V : Finset String) (σ τ : Subst) : Prop where
  within : Within V τ
  binds : τ = σ ∨ (unbound V τ).card < (unbound V σ).card

theorem Within.advances_self (h : Within V σ) : Advances V σ σ := ⟨h, Or.inl rfl⟩

theorem Advances.trans (h : Advances V σ τ) (h' : Advances V τ υ) : Advances V σ υ := by
  refine ⟨h'.within, ?_⟩
  rcases h'.binds with rfl | hlt'
  · exact h.binds
  · rcases h.binds with rfl | hlt
    · exact Or.inr hlt'
    · exact Or.inr (Nat.lt_trans hlt' hlt)

theorem Within.bind (h : Within V σ) (hx : σ.value x = .var x) (ht : t.subst σ = t)
    (hxt : x ∉ t.vars) (hxV : x ∈ V) (htV : ∀ y ∈ t.vars, y ∈ V) :
    Advances V σ (σ.bind x t) := by
  have hsolves := h.idempotent.solves_bind hx ht hxt
  refine ⟨⟨hsolves.idempotent, fun y hy => ?_⟩, Or.inr (card_unbound_bind_lt hx ht hxt hxV)⟩
  refine hsolves.vars (· ∈ V) ?_ y (h.closed y hy)
  rw [List.forall_mem_singleton]
  exact ⟨mem_vars_subst h.closed (by simpa using hxV), mem_vars_subst h.closed htV⟩

/-- Some result is returned, and a unifier advances. -/
def Ends (V : Finset String) (σ : Subst) (P : Option Subst → Prop) : Prop :=
  ∃ r, P r ∧ ∀ τ, r = some τ → Advances V σ τ

theorem Ends.none {P : Option Subst → Prop} (h : P none) : Ends V σ P := ⟨.none, h, by simp⟩

theorem Ends.some {P : Option Subst → Prop} (h : P (some τ)) (hτ : Advances V σ τ) : Ends V σ P :=
  ⟨.some τ, h, fun _ he => Option.some.inj he ▸ hτ⟩

/-- If the calls for the single positions return, so does the one for the lists. -/
theorem Advances.endsList (h : Advances V σ τ)
    (hcall : ∀ τ, Advances V σ τ → ∀ s ∈ ss, ∀ t ∈ ts, Ends V τ (Returns τ s t)) :
    Ends V σ (ReturnsList τ ss ts) := by
  induction ss generalizing τ ts with
  | nil =>
    cases ts with
    | nil => exact .some .nil h
    | cons t ts => exact .none .leftEnds
  | cons s ss ih =>
    cases ts with
    | nil => exact .none .rightEnds
    | cons t ts =>
      obtain ⟨r, hr, hadv⟩ := hcall τ h s (List.mem_cons_self ..) t (List.mem_cons_self ..)
      cases r with
      | none => exact .none (.fail hr)
      | some υ =>
        obtain ⟨r, hrest, hadv'⟩ := ih (h.trans (hadv υ rfl)) fun τ hτ s hs t ht =>
          hcall τ hτ s (List.mem_cons_of_mem _ hs) t (List.mem_cons_of_mem _ ht)
        exact ⟨r, .next hr hrest, hadv'⟩

/-- Every call returns. By induction on the number of variables that are left to bind, and for the
same number on the size of the left term. -/
theorem Within.ends (h : Within V σ) (hs : ∀ x ∈ s.vars, x ∈ V) (ht : ∀ x ∈ t.vars, x ∈ V) :
    Ends V σ (Returns σ s t) := by
  induction hn : (unbound V σ).card using Nat.strongRecOn generalizing σ s t with
  | ind n ihn =>
    induction hm : (s.subst σ).size using Nat.strongRecOn generalizing s t with
    | ind m ihm =>
      have hsV := mem_vars_subst h.closed hs
      have htV := mem_vars_subst h.closed ht
      have hss := h.idempotent.subst_subst s
      have htt := h.idempotent.subst_subst t
      by_cases he : s.subst σ = t.subst σ
      · exact .some (.equal he) h.advances_self
      cases hs' : s.subst σ with
      | var x =>
        by_cases hx : x ∈ (t.subst σ).vars
        · exact .none (.occursLeft hs' he hx)
        · rw [hs'] at hss hsV
          exact .some (.bindLeft hs' hx) (h.bind hss htt hx (hsV x (by simp)) htV)
      | app f ss =>
        cases ht' : t.subst σ with
        | var y =>
          by_cases hy : y ∈ (s.subst σ).vars
          · exact .none (.occursRight hs' ht' hy)
          · rw [ht'] at htt htV
            exact .some (.bindRight hs' ht' hy) (h.bind htt hss hy (htV y (by simp)) hsV)
        | app g ts =>
          by_cases hfg : f = g
          · subst hfg
            have hne : ss ≠ ts := fun hst => he (by rw [hs', ht', hst])
            rw [hs'] at hss hsV hm
            rw [ht'] at htV
            refine (h.advances_self.endsList fun τ hτ u hu w hw => ?_).imp fun r hr =>
              ⟨.args hs' ht' hne hr.1, hr.2⟩
            have huV : ∀ x ∈ u.vars, x ∈ V := fun x hx => hsV x (by simpa using ⟨u, hu, hx⟩)
            have hwV : ∀ x ∈ w.vars, x ∈ V := fun x hx => htV x (by simpa using ⟨w, hw, hx⟩)
            rcases hτ.binds with rfl | hlt
            · refine ihm _ ?_ huV hwV rfl
              rw [subst_args_eq_self hss u hu, ← hm]
              exact Term.size_lt_app hu
            · exact ihn _ (hn ▸ hlt) hτ.within huV hwV rfl
          · exact .none (.clash hs' ht' hfg)

/-- The variables of two lists and of the values bound so far are closed under the values. -/
theorem within_varsInPlay (hσ : σ.Idempotent) (ss ts : List Term) :
    Within (varsInPlay σ ss ts).toFinset σ := ⟨hσ, (shallow_initial hσ ss ts).closed⟩

theorem exists_returnsList (hσ : σ.Idempotent) (ss ts : List Term) :
    ∃ r, ReturnsList σ ss ts r := by
  have hwithin := within_varsInPlay hσ ss ts
  have hplay : ∀ u ∈ ss ++ ts, ∀ x ∈ u.vars, x ∈ (varsInPlay σ ss ts).toFinset := by
    intro u hu x hx
    rw [List.mem_toFinset, varsInPlay, Term.varsList_eq_flatMap ss, Term.varsList_eq_flatMap ts,
      ← List.flatMap_append]
    exact List.mem_append_left _ (List.mem_flatMap.2 ⟨u, hu, hx⟩)
  have hends : Ends _ σ (ReturnsList σ ss ts) := hwithin.advances_self.endsList
    fun τ hτ s hs t ht => hτ.within.ends (hplay s (List.mem_append_left _ hs))
      (hplay t (List.mem_append_right _ ht))
  obtain ⟨r, hr, -⟩ := hends
  exact ⟨r, hr⟩

/-- The bound on the depth changes nothing: what the calls come to is what unification gives. -/
theorem unifyList_returns (hσ : σ.Idempotent) (ss ts : List Term) :
    ReturnsList σ ss ts (unifyList true σ ss ts) := by
  obtain ⟨r, hr⟩ := exists_returnsList hσ ss ts
  obtain ⟨n, hn⟩ := hr.unifyListWith_eq
  cases hu : unifyList true σ ss ts with
  | some τ =>
    -- a unifier is found at every greater depth, also where the calls have ended
    have hdeep := unifyListWith_mono (fun _ _ _ _ => unifyWithin_mono (Nat.le_max_right n _)) hu
    rw [hn _ (Nat.le_max_left _ _)] at hdeep
    exact hdeep ▸ hr
  | none =>
    cases r with
    | none => exact hr
    | some τ =>
      obtain ⟨hl, hsolves⟩ :=
        unifyListWith_solves (fun _ _ _ _ => unifyWithin_solves) hσ (hn n (Nat.le_refl n))
      obtain ⟨υ, hυ⟩ := unifyList_isSome (θ := τ.value) hσ hl fun e he => by
        simp only [← Term.subst_eq_inst, ← Term.subst_subst_eq_inst, hsolves.subst_subst]
        exact hsolves.subst_eq he
      rw [hu] at hυ
      cases hυ

theorem unifyList_singleton (check : Bool) (σ : Subst) (s t : Term) :
    unifyList check σ [s] [t] = unify check σ s t := by
  simp [unifyList, unify, unifyListWith, Term.sizeList]

theorem unify_returns (hσ : σ.Idempotent) (s t : Term) : Returns σ s t (unify true σ s t) := by
  have h := unifyList_returns hσ [s] [t]
  rw [unifyList_singleton] at h
  generalize unify true σ s t = r at h ⊢
  cases h with
  | fail h => exact h
  | next h hrest =>
    cases hrest
    exact h

/-! ### Most general unifiers -/

/-- What unification of `s` and `t` under `σ` should come to, where `subst` applies substitutions to
them: an idempotent unifier that contains `σ` and through which every unifier of their instances
factors, or nothing if there is no unifier. -/
structure MostGeneral {α : Type} (subst : Subst → α → α) (σ : Subst) (s t : α)
    (r : Option Subst) : Prop where
  unifier : ∀ u, r = some u → u.Idempotent ∧ subst u s = subst u t ∧
    (∀ p : Term, (p.subst σ).subst u = p.subst u) ∧
    ∀ ρ : Subst, subst ρ (subst σ s) = subst ρ (subst σ t) →
      ∀ p : Term, (p.subst u).subst ρ = (p.subst σ).subst ρ
  nothing : r = none → ∀ ρ : Subst, subst ρ (subst σ s) ≠ subst ρ (subst σ t)

theorem mostGeneral_of_solves (hsome : ∀ τ, r = some τ → Solves σ τ [(s, t)])
    (hnone : ∀ θ : String → Term, (s.subst σ).inst θ = (t.subst σ).inst θ → ∃ τ, r = some τ) :
    MostGeneral Term.subst σ s t r where
  unifier u hu := by
    have hsolves := hsome u hu
    refine ⟨hsolves.idempotent, hsolves.subst_eq (List.mem_singleton_self _), hsolves.subst_subst,
      fun ρ hρ p => ?_⟩
    rw [Term.subst_eq_inst ρ, Term.subst_eq_inst ρ]
    refine hsolves.inst_eq ?_ p
    rw [SolvedBy, List.forall_mem_singleton, ← Term.inst_subst, ← Term.inst_subst,
      ← Term.subst_eq_inst ρ, ← Term.subst_eq_inst ρ]
    exact hρ
  nothing hr ρ hρ := by
    rw [Term.subst_eq_inst ρ, Term.subst_eq_inst ρ] at hρ
    obtain ⟨τ, hτ⟩ := hnone ρ.value hρ
    cases hr.symm.trans hτ

/-- Atoms are unified as the terms are that are written like them. -/
theorem MostGeneral.atom (h : MostGeneral Term.subst σ a.term b.term r) :
    MostGeneral Atom.subst σ a b r := by
  have hiff : ∀ ρ : Subst, (a.subst σ).subst ρ = (b.subst σ).subst ρ ↔
      (a.term.subst σ).subst ρ = (b.term.subst σ).subst ρ := fun ρ => by
    rw [← Atom.term_inj, Atom.term_subst, Atom.term_subst, Atom.term_subst, Atom.term_subst]
  refine ⟨fun u hu => ?_, fun hr ρ hρ => h.nothing hr ρ ((hiff ρ).1 hρ)⟩
  obtain ⟨hidem, heq, hext, hgen⟩ := h.unifier u hu
  rw [← Atom.term_subst, ← Atom.term_subst, Atom.term_inj] at heq
  exact ⟨hidem, heq, hext, fun ρ hρ => hgen ρ ((hiff ρ).1 hρ)⟩

theorem unify_isSome {θ : String → Term} (hσ : σ.Idempotent)
    (h : (s.subst σ).inst θ = (t.subst σ).inst θ) : ∃ τ, unify true σ s t = some τ := by
  rw [← unifyList_singleton]
  refine unifyList_isSome hσ rfl (θ := θ) ?_
  simpa [SolvedBy, ← Term.inst_subst] using h

/-- Unification computes most general unifiers. From an idempotent substitution and with the occurs
check, unification of two terms ends, after finitely many calls, with a most general unifier under
that substitution, or with nothing if there is none; and so does unification of two atoms. -/
theorem unify_mostGeneral (hσ : σ.Idempotent) :
    (∀ s t : Term, Returns σ s t (unify true σ s t) ∧
      MostGeneral Term.subst σ s t (unify true σ s t)) ∧
    ∀ a b : Atom,
      (a.predicate = b.predicate → ReturnsList σ a.args b.args (unifyAtoms true σ a b)) ∧
      MostGeneral Atom.subst σ a b (unifyAtoms true σ a b) := by
  refine ⟨fun s t => ⟨unify_returns hσ s t, ?_⟩, fun a b => ⟨fun hp => ?_, ?_⟩⟩
  · exact mostGeneral_of_solves (fun _ => unifyWithin_solves hσ) fun _ => unify_isSome hσ
  · rw [unifyAtoms, if_pos hp]
    exact unifyList_returns hσ a.args b.args
  · refine (mostGeneral_of_solves (fun _ => unifyAtoms_solves hσ) fun θ hθ => ?_).atom
    refine unifyAtoms_isSome hσ (θ := θ) ?_
    rw [← Atom.term_inj, Atom.term_inst, Atom.term_inst, Atom.term_subst, Atom.term_subst]
    exact hθ

/-- `x` stands for the successor of `y`. -/
def oneAbove : Subst := empty.bind "x" (.app "succ" [.var "y"])

def pair (s t : Term) : Term := .app "pair" [s, t]

theorem oneAbove_idempotent : oneAbove.Idempotent :=
  (idempotent_empty.solves_bind rfl rfl (by decide)).idempotent

-- `z` is bound to the value of `x` first; then `y` meets its own second successor, or zero
theorem unify_mostGeneral_oneAbove :
    (∀ ρ : Subst, ((pair (.var "x") (.var "y")).subst oneAbove).subst ρ ≠
      ((pair (.var "z") (.app "succ" [.var "z"])).subst oneAbove).subst ρ) ∧
    ∃ u, unify true oneAbove (pair (.var "x") (.var "y")) (pair (.var "z") (.const "zero")) =
        some u ∧ u.Idempotent ∧
      (pair (.var "x") (.var "y")).subst u = pair (.app "succ" [.const "zero"]) (.const "zero") ∧
      (pair (.var "x") (.var "y")).subst u = (pair (.var "z") (.const "zero")).subst u := by
  have hnone : unify true oneAbove (pair (.var "x") (.var "y"))
      (pair (.var "z") (.app "succ" [.var "z"])) = none := by decide +kernel
  have hsome : (unify true oneAbove (pair (.var "x") (.var "y"))
      (pair (.var "z") (.const "zero"))).map (Term.subst · (pair (.var "x") (.var "y"))) =
        some (pair (.app "succ" [.const "zero"]) (.const "zero")) := by decide +kernel
  obtain ⟨u, hu, hvalue⟩ := Option.map_eq_some_iff.1 hsome
  obtain ⟨hidem, heq, -⟩ := ((unify_mostGeneral oneAbove_idempotent).1 _ _).2.unifier u hu
  exact ⟨((unify_mostGeneral oneAbove_idempotent).1 _ _).2.nothing hnone, u, hu, hidem, hvalue, heq⟩

end Subst

end Elenchus

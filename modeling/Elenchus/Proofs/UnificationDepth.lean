import Elenchus.Proofs.Unification
import Mathlib.Tactic.Ring

/-! How deep unification goes: a most general solution is within the bound it runs with. -/

namespace Elenchus

namespace Subst

variable {σ τ : Subst} {s t : Term} {ss ts : List Term} {V : Finset String} {N B : Nat}

/-- A term over the variables `V` that is not deeper than `N` stands behind `s`. -/
def Sourced (V : Finset String) (N : Nat) (σ : Subst) (s : Term) : Prop :=
  ∃ p : Term, p.depth ≤ N ∧ (∀ x ∈ p.vars, x ∈ V) ∧ p.subst σ = s.subst σ

/-- The variables that are left to bind. -/
def unbound (V : Finset String) (σ : Subst) : Finset String := V.filter fun x => σ.value x = .var x

/-- Every value comes from a term of bounded depth, and doubling the depth of the values once for
every variable that is left stays within `B`. -/
structure Shallow (V : Finset String) (N B : Nat) (σ : Subst) : Prop where
  closed : ∀ x ∈ V, ∀ y ∈ (σ.value x).vars, y ∈ V
  source : ∀ x ∈ V, ∀ f us, σ.value x = .app f us →
    ∃ ps, (Term.app f ps).depth ≤ N ∧ (∀ y ∈ (Term.app f ps).vars, y ∈ V) ∧
      (Term.app f ps).subst σ = σ.value x
  bounded : ∃ M, (∀ x ∈ V, (σ.value x).depth ≤ M) ∧ (M + N) * 2 ^ (unbound V σ).card ≤ B

theorem depthList_le_iff {n : Nat} : Term.depthList ts ≤ n ↔ ∀ t ∈ ts, t.depth ≤ n := by
  induction ts with
  | nil => simp [Term.depthList]
  | cons t ts ih => simp [Term.depthList, ih]

theorem depth_app_le_iff {f : String} {n : Nat} :
    (Term.app f ts).depth ≤ n ↔ ∀ t ∈ ts, t.depth + 1 ≤ n := by
  cases ts with
  | nil => simp [Term.depth]
  | cons u us =>
    have : (Term.app f (u :: us)).depth = 1 + Term.depthList (u :: us) := rfl
    constructor
    · intro h t ht
      have := depthList_le_iff.1 (Nat.le_refl (Term.depthList (u :: us))) t ht
      omega
    · intro h
      have hu := h u (by simp)
      have := (depthList_le_iff (n := n - 1)).2 fun t ht => by
        have := h t ht
        omega
      omega

/-- An instance is at most as deep as the term and the values together. -/
theorem depth_inst_le {θ : String → Term} {M : Nat} (h : ∀ x ∈ t.vars, (θ x).depth ≤ M) :
    (t.inst θ).depth ≤ t.depth + M := by
  induction t with
  | var x => simpa [Term.depth] using h x (by simp)
  | app f us ih =>
    rw [Term.inst_app, depth_app_le_iff]
    intro u hm
    obtain ⟨u, hu, rfl⟩ := List.mem_map.1 hm
    have h1 := ih u hu fun x hx => h x (by simpa using ⟨u, hu, hx⟩)
    have h2 := depth_lt_app (f := f) hu
    omega

theorem depth_le_size (t : Term) : t.depth ≤ t.size := by
  induction t with
  | var x => simp [Term.depth]
  | app f us ih =>
    rw [depth_app_le_iff]
    intro u hu
    have := ih u hu
    have := Term.size_lt_app (f := f) hu
    omega

theorem length_varsList_le_of (h : ∀ t ∈ ts, t.vars.length ≤ t.size) :
    (Term.varsList ts).length ≤ Term.sizeList ts := by
  induction ts with
  | nil => simp [Term.varsList]
  | cons t ts ih =>
    have h1 := h t (by simp)
    have h2 := ih fun u hu => h u (List.mem_cons_of_mem _ hu)
    simp only [Term.varsList, List.length_append, Term.sizeList]
    omega

theorem length_vars_le_size (t : Term) : t.vars.length ≤ t.size := by
  induction t with
  | var x => simp [Term.size]
  | app f us ih =>
    have := length_varsList_le_of ih
    simp only [Term.vars, Term.size]
    omega

theorem length_varsList_le (ts : List Term) : (Term.varsList ts).length ≤ Term.sizeList ts :=
  length_varsList_le_of fun t _ => length_vars_le_size t

theorem Sourced.extend {es : List (Term × Term)} (h : Sourced V N σ s) (hτ : Solves σ τ es) :
    Sourced V N τ s := by
  obtain ⟨p, hd, hv, he⟩ := h
  exact ⟨p, hd, hv, by rw [← hτ.subst_subst, he, hτ.subst_subst]⟩

/-- A term whose instance has a symbol at its head comes from one with that symbol there. -/
theorem Shallow.exists_app {f : String} {us : List Term} (h : Shallow V N B σ)
    (hs : Sourced V N σ s) (he : s.subst σ = .app f us) :
    ∃ ps, (Term.app f ps).depth ≤ N ∧ (∀ y ∈ (Term.app f ps).vars, y ∈ V) ∧
      (Term.app f ps).subst σ = s.subst σ := by
  obtain ⟨p, hd, hv, hp⟩ := hs
  cases p with
  | var x =>
    have hval : σ.value x = s.subst σ := hp
    obtain ⟨ps, hd, hv', hps⟩ := h.source x (hv x (by simp)) f us (hval.trans he)
    exact ⟨ps, hd, hv', hps.trans hval⟩
  | app g ps =>
    obtain rfl : g = f := by simp_all [Term.subst]
    exact ⟨ps, hd, hv, hp⟩

/-- The arguments of an instance are instances of subterms. -/
theorem Sourced.args {f : String} {us : List Term} (hσ : σ.Idempotent) (h : Shallow V N B σ)
    (hs : Sourced V N σ s) (he : s.subst σ = .app f us) : ∀ u ∈ us, Sourced V N σ u := by
  obtain ⟨ps, hd, hv, hp⟩ := h.exists_app hs he
  intro u hu
  simp only [he, Term.subst, Term.substList_eq_map, Term.app.injEq, true_and] at hp
  obtain ⟨p, hp, rfl⟩ := List.mem_map.1 (hp ▸ hu)
  have := depth_lt_app (f := f) hp
  exact ⟨p, by omega, fun x hx => hv x (by simpa using ⟨p, hp, hx⟩), by rw [hσ.subst_subst]⟩

/-- Instances of terms over `V` are terms over `V` if the values of `V` are. -/
theorem mem_vars_subst {p : Term} (h : ∀ x ∈ V, ∀ y ∈ (σ.value x).vars, y ∈ V)
    (hp : ∀ x ∈ p.vars, x ∈ V) : ∀ x ∈ (p.subst σ).vars, x ∈ V := by
  intro x hx
  rw [Term.subst_eq_inst] at hx
  obtain ⟨y, hy, hx⟩ := Term.mem_vars_inst.1 hx
  exact h y (hp y hy) x hx

theorem Sourced.depth_le {M : Nat} (hs : Sourced V N σ s)
    (hM : ∀ x ∈ V, (σ.value x).depth ≤ M) : (s.subst σ).depth ≤ M + N := by
  obtain ⟨p, hd, hv, hp⟩ := hs
  have : (p.subst σ).depth ≤ p.depth + M := by
    rw [Term.subst_eq_inst]
    exact depth_inst_le fun x hx => hM x (hv x hx)
  rw [← hp]
  omega

theorem Shallow.depth_subst_le (h : Shallow V N B σ) (hs : Sourced V N σ s) :
    (s.subst σ).depth ≤ B := by
  obtain ⟨M, hM, hB⟩ := h.bounded
  calc (s.subst σ).depth ≤ M + N := hs.depth_le hM
    _ ≤ (M + N) * 2 ^ (unbound V σ).card := Nat.le_mul_of_pos_right _ (Nat.two_pow_pos _)
    _ ≤ B := hB

/-! ### One more binding -/

section
variable {x : String} (hx : σ.value x = .var x) (ht : t.subst σ = t) (hxt : x ∉ t.vars)
include hx ht hxt

/-- A variable with a value does not occur in any value, so it cannot become free again. -/
theorem card_unbound_bind_lt (hxV : x ∈ V) :
    (unbound V (σ.bind x t)).card < (unbound V σ).card := by
  apply Finset.card_lt_card
  rw [Finset.ssubset_iff_of_subset]
  · refine ⟨x, Finset.mem_filter.2 ⟨hxV, hx⟩, fun hm => ?_⟩
    have := (Finset.mem_filter.1 hm).2
    rw [value_bind, if_pos rfl] at this
    exact hxt (by simp [this])
  · intro y hy
    obtain ⟨hyV, hyy⟩ := Finset.mem_filter.1 hy
    refine Finset.mem_filter.2 ⟨hyV, ?_⟩
    rw [value_bind_of_unbound hx] at hyy
    cases hy' : σ.value y with
    | app g ws => simp [hy', Term.subst] at hyy
    | var z =>
      rw [hy', Term.subst_eq_inst, Term.inst_var, value_single] at hyy
      split at hyy
      · rw [hyy] at ht
        exact hy'.symm.trans ht
      · exact hyy

theorem Shallow.source_bind (h : Shallow V N B σ) (hs : Sourced V N σ t) {y f : String}
    {us : List Term} (hy : y ∈ V) (he : (σ.bind x t).value y = .app f us) :
    ∃ ps, (Term.app f ps).depth ≤ N ∧ (∀ z ∈ (Term.app f ps).vars, z ∈ V) ∧
      (Term.app f ps).subst (σ.bind x t) = (σ.bind x t).value y := by
  have hbind := value_bind_of_unbound hx t y
  cases hy' : σ.value y with
  | app g ws =>
    obtain ⟨ps, hd, hv, hps⟩ := h.source y hy g ws hy'
    obtain rfl : g = f := by simp_all [Term.subst]
    exact ⟨ps, hd, hv, by rw [subst_bind hx, hps, hbind]⟩
  | var z =>
    rw [hy', Term.subst_eq_inst, Term.inst_var, value_single] at hbind
    split at hbind
    · obtain ⟨ps, hd, hv, hps⟩ := h.exists_app hs (ht.trans (hbind.symm.trans he))
      refine ⟨ps, hd, hv, ?_⟩
      rw [subst_bind hx, hps, ht, subst_single_eq_self hxt, hbind]
    · simp [hbind] at he

/-- A binding uses up a variable and at most doubles the depth of the values. -/
theorem Shallow.bind (h : Shallow V N B σ) (hxV : x ∈ V) (hs : Sourced V N σ t) :
    Shallow V N B (σ.bind x t) := by
  have hbind := value_bind_of_unbound hx t
  refine ⟨fun y hy z hz => ?_, fun y hy f us => h.source_bind hx ht hxt hs hy, ?_⟩
  · rw [hbind, Term.subst_eq_inst] at hz
    obtain ⟨w, hw, hz⟩ := Term.mem_vars_inst.1 hz
    rw [value_single] at hz
    split at hz
    · obtain ⟨p, -, hv, hp⟩ := hs
      rw [← ht, ← hp] at hz
      exact mem_vars_subst h.closed hv z hz
    · rw [Term.vars_var, List.mem_singleton] at hz
      exact hz ▸ h.closed y hy w hw
  · obtain ⟨M, hM, hB⟩ := h.bounded
    refine ⟨M + (M + N), fun y hy => ?_, ?_⟩
    · rw [hbind, Term.subst_eq_inst]
      refine Nat.le_trans (depth_inst_le (M := M + N) fun z _ => ?_)
        (Nat.add_le_add_right (hM y hy) _)
      rw [value_single]
      split
      · exact ht ▸ hs.depth_le hM
      · simp [Term.depth]
    · have hlt := card_unbound_bind_lt hx ht hxt hxV
      calc (M + (M + N) + N) * 2 ^ (unbound V (σ.bind x t)).card
          = (M + N) * 2 ^ ((unbound V (σ.bind x t)).card + 1) := by ring
        _ ≤ (M + N) * 2 ^ (unbound V σ).card :=
          Nat.mul_le_mul_left _ (Nat.pow_le_pow_right (by omega) hlt)
        _ ≤ B := hB

end

theorem unifyListWith_shallow {unify : Subst → Term → Term → Option Subst}
    (hs : ∀ σ s t τ, Idempotent σ → unify σ s t = some τ → Solves σ τ [(s, t)])
    (hu : ∀ σ s t τ, Idempotent σ → Shallow V N B σ → Sourced V N σ s → Sourced V N σ t →
      unify σ s t = some τ → Shallow V N B τ)
    (hσ : σ.Idempotent) (h : Shallow V N B σ) (hss : ∀ s ∈ ss, Sourced V N σ s)
    (hts : ∀ t ∈ ts, Sourced V N σ t) (hr : unifyListWith unify σ ss ts = some τ) :
    Shallow V N B τ := by
  induction ss generalizing σ ts with
  | nil =>
    cases ts with
    | nil => simp_all [unifyListWith]
    | cons t ts => simp [unifyListWith] at hr
  | cons s ss ih =>
    cases ts with
    | nil => simp [unifyListWith] at hr
    | cons t ts =>
      obtain ⟨υ, h1, h2⟩ := Option.bind_eq_some_iff.1 hr
      have hsol := hs _ _ _ _ hσ h1
      refine ih hsol.idempotent (hu _ _ _ _ hσ h (hss s (by simp)) (hts t (by simp)) h1) ?_ ?_ h2
      · exact fun u hm => (hss u (List.mem_cons_of_mem _ hm)).extend hsol
      · exact fun u hm => (hts u (List.mem_cons_of_mem _ hm)).extend hsol

theorem unifyWithin_shallow {depth : Nat} (hσ : σ.Idempotent) (h : Shallow V N B σ)
    (hs : Sourced V N σ s) (ht : Sourced V N σ t) (hr : unifyWithin true depth σ s t = some τ) :
    Shallow V N B τ := by
  induction depth generalizing σ s t τ with
  | zero => simp [unifyWithin] at hr
  | succ depth ih =>
    -- instances of sourced terms are sourced themselves, and over the same variables
    have sourced : ∀ u : Term, Sourced V N σ u →
        Sourced V N σ (u.subst σ) ∧ ∀ x ∈ (u.subst σ).vars, x ∈ V := by
      rintro u ⟨p, hd, hv, hp⟩
      refine ⟨⟨p, hd, hv, by rw [hp, hσ.subst_subst]⟩, ?_⟩
      rw [← hp]
      exact mem_vars_subst h.closed hv
    obtain ⟨hs', hsV⟩ := sourced s hs
    obtain ⟨ht', htV⟩ := sourced t ht
    have hss := hσ.subst_subst s
    have htt := hσ.subst_subst t
    simp only [unifyWithin] at hr
    generalize s.subst σ = s' at *
    generalize t.subst σ = t' at *
    split at hr
    · exact Option.some.inj hr ▸ h
    · split at hr
      · split at hr
        · simp at hr
        · next hm =>
          rw [← Option.some.inj hr]
          exact h.bind hss htt (by simpa [Term.mentions_iff] using hm) (hsV _ (by simp)) ht'
      · split at hr
        · simp at hr
        · next hm =>
          rw [← Option.some.inj hr]
          exact h.bind htt hss (by simpa [Term.mentions_iff] using hm) (htV _ (by simp)) hs'
      · split at hr
        · next hf =>
          subst hf
          exact unifyListWith_shallow (fun _ _ _ _ => unifyWithin_solves) (fun _ _ _ _ => ih) hσ h
            (hs'.args hσ h hss) (ht'.args hσ h htt) hr
        · simp at hr

/-- The variables in play when two lists are unified. -/
def varsInPlay (σ : Subst) (ss ts : List Term) : List String :=
  Term.varsList ss ++ Term.varsList ts ++ Term.varsList (σ.bindings.map Prod.snd)

theorem length_varsInPlay_le (σ : Subst) (ss ts : List Term) :
    (varsInPlay σ ss ts).length ≤ Term.sizeList ss + Term.sizeList ts + σ.valueSize := by
  have h1 := length_varsList_le ss
  have h2 := length_varsList_le ts
  have h3 := length_varsList_le (σ.bindings.map Prod.snd)
  simp only [varsInPlay, List.length_append, valueSize]
  omega

theorem value_cases (σ : Subst) (x : String) :
    σ.value x = .var x ∨ σ.value x ∈ σ.bindings.map Prod.snd := by
  cases h : σ.get? x with
  | none => exact Or.inl (by simp [value, h])
  | some t =>
    rw [value_of_get? h]
    exact Or.inr (List.mem_map_of_mem (get?_eq_some_iff.1 h))

theorem shallow_initial (hσ : σ.Idempotent) (ss ts : List Term) :
    let n := Term.sizeList ss + Term.sizeList ts + σ.valueSize
    Shallow (varsInPlay σ ss ts).toFinset n (2 * n * 2 ^ n) σ := by
  intro n
  have small : ∀ x, (σ.value x).depth ≤ n := by
    intro x
    rcases value_cases σ x with h | h
    · simp [h, Term.depth]
    · have h1 := Term.size_le_sizeList h
      have h2 := depth_le_size (σ.value x)
      simp only [n, valueSize]
      omega
  have inside : ∀ x ∈ (varsInPlay σ ss ts).toFinset, ∀ y ∈ (σ.value x).vars,
      y ∈ (varsInPlay σ ss ts).toFinset := by
    intro x hx y hy
    rcases value_cases σ x with h | h
    · rw [h, Term.vars_var, List.mem_singleton] at hy
      exact hy ▸ hx
    · rw [List.mem_toFinset, varsInPlay, List.mem_append,
        Term.varsList_eq_flatMap (σ.bindings.map _)]
      exact Or.inr (List.mem_flatMap.2 ⟨_, h, hy⟩)
  refine ⟨inside, fun x hx f us he => ⟨us, ?_, ?_, ?_⟩, n, fun x _ => small x, ?_⟩
  · rw [← he]
    exact small x
  · rw [← he]
    exact inside x hx
  · rw [← he]
    exact hσ x
  · have hcard : (unbound (varsInPlay σ ss ts).toFinset σ).card ≤ n :=
      Nat.le_trans (Finset.card_filter_le _ _)
        (Nat.le_trans (List.toFinset_card_le _) (length_varsInPlay_le σ ss ts))
    calc (n + n) * 2 ^ (unbound (varsInPlay σ ss ts).toFinset σ).card
        ≤ (n + n) * 2 ^ n := Nat.mul_le_mul_left _ (Nat.pow_le_pow_right (by omega) hcard)
      _ = 2 * n * 2 ^ n := by ring

theorem unifyList_solves (hσ : σ.Idempotent) (h : unifyList true σ ss ts = some τ) :
    ss.length = ts.length ∧ Solves σ τ (ss.zip ts) :=
  unifyListWith_solves (fun _ _ _ _ => unifyWithin_solves) hσ h

/-- Lists that some extension of `σ` makes equal are unified. -/
theorem unifyList_isSome {θ : String → Term} (hσ : σ.Idempotent) (hl : ss.length = ts.length)
    (hθ : SolvedBy (fun x => (σ.value x).inst θ) (ss.zip ts)) :
    ∃ τ, unifyList true σ ss ts = some τ := by
  -- with enough depth there is a solution, and that solution shows how much depth is enough
  let deep := Term.depthList (ss.map fun s => (s.subst σ).inst θ) + 1
  obtain ⟨τ, hτ⟩ : ∃ τ, unifyListWith (unifyWithin true deep) σ ss ts = some τ :=
    unifyListWith_isSome (Q := fun u => u.depth < deep) (fun _ _ _ _ => unifyWithin_solves)
      (fun _ _ _ => unifyWithin_isSome) hσ hl hθ fun s hs => Nat.lt_succ_of_le <|
        depthList_le_iff.1 (Nat.le_refl _) _
          (List.mem_map_of_mem (f := fun s => (s.subst σ).inst θ) hs)
  have hsol := (unifyListWith_solves (fun _ _ _ _ => unifyWithin_solves) hσ hτ).2
  have hplay : ∀ us ∈ [ss, ts], ∀ u ∈ us, Sourced (varsInPlay σ ss ts).toFinset
      (Term.sizeList ss + Term.sizeList ts + σ.valueSize) σ u := by
    intro us hus u hu
    have h1 := Term.size_le_sizeList hu
    have h2 := depth_le_size u
    refine ⟨u, ?_, fun x hx => ?_, rfl⟩
    · simp only [List.mem_cons, List.not_mem_nil, or_false] at hus
      rcases hus with rfl | rfl <;> omega
    · have hm : x ∈ Term.varsList us := by
        rw [Term.varsList_eq_flatMap]
        exact List.mem_flatMap.2 ⟨u, hu, hx⟩
      simp only [List.mem_cons, List.not_mem_nil, or_false] at hus
      rcases hus with rfl | rfl <;> simp [varsInPlay, hm]
  have hshallow := unifyListWith_shallow (fun _ _ _ _ => unifyWithin_solves)
    (fun _ _ _ _ => unifyWithin_shallow) hσ (shallow_initial hσ ss ts) (hplay ss (by simp))
    (hplay ts (by simp)) hτ
  refine unifyListWith_isSome (θ := τ.value)
    (Q := fun u => u.depth < depthBound σ (Term.sizeList ss + Term.sizeList ts))
    (fun _ _ _ _ => unifyWithin_solves) (fun _ _ _ => unifyWithin_isSome) hσ hl ?_ fun s hs => ?_
  · intro e he
    simp only [← Term.subst_eq_inst, ← Term.subst_subst_eq_inst, hsol.subst_subst]
    exact hsol.subst_eq he
  · rw [← Term.subst_eq_inst, hsol.subst_subst]
    have := hshallow.depth_subst_le ((hplay ss (by simp) s hs).extend hsol)
    simp only [depthBound, Nat.pow_eq]
    omega

end Subst

end Elenchus

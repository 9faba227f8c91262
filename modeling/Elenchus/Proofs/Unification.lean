import Elenchus.Proofs.Evaluation
import Elenchus.Subst.Unify
import Mathlib.Data.Finset.Card
import Mathlib.Data.Finset.Filter

/-!
Unification with the occurs check. What it returns is a most general solution of the equations, and
it returns one whenever there is a solution: the bound on the depth is never reached before.
-/

namespace Elenchus

namespace Subst

variable {σ τ υ : Subst} {s t : Term} {ss ts : List Term} {es fs : List (Term × Term)}

/-- Values are not changed by applying the substitution once more. -/
def Idempotent (σ : Subst) : Prop := ∀ x, (σ.value x).subst σ = σ.value x

theorem idempotent_empty : empty.Idempotent := fun _ => rfl

theorem Idempotent.subst_subst (h : σ.Idempotent) (t : Term) : (t.subst σ).subst σ = t.subst σ := by
  rw [Term.subst_subst_eq_inst, Term.subst_eq_inst]
  exact Term.inst_congr fun x _ => h x

/-- Both sides of every equation agree under a valuation. -/
def SolvedBy (θ : String → Term) (es : List (Term × Term)) : Prop :=
  ∀ e ∈ es, e.1.inst θ = e.2.inst θ

/-- `τ` solves the equations, in a most general way among the extensions of `σ`. -/
structure Solves (σ τ : Subst) (es : List (Term × Term)) : Prop where
  idempotent : τ.Idempotent
  extends_value : ∀ x, (σ.value x).subst τ = τ.value x
  solved : SolvedBy τ.value es
  general : ∀ θ : String → Term, SolvedBy (fun x => (σ.value x).inst θ) es →
    ∀ x, (τ.value x).inst θ = (σ.value x).inst θ
  vars : ∀ P : String → Prop,
    (∀ e ∈ es, (∀ y ∈ (e.1.subst σ).vars, P y) ∧ ∀ y ∈ (e.2.subst σ).vars, P y) →
    ∀ x, (∀ y ∈ (σ.value x).vars, P y) → ∀ y ∈ (τ.value x).vars, P y

theorem Solves.subst_subst (h : Solves σ τ es) (t : Term) : (t.subst σ).subst τ = t.subst τ := by
  rw [Term.subst_subst_eq_inst, Term.subst_eq_inst]
  exact Term.inst_congr fun x _ => h.extends_value x

theorem Solves.inst_eq (h : Solves σ τ es) {θ : String → Term}
    (hθ : SolvedBy (fun x => (σ.value x).inst θ) es) (t : Term) :
    (t.subst τ).inst θ = (t.subst σ).inst θ := by
  rw [Term.inst_subst, Term.inst_subst]
  exact Term.inst_congr fun x _ => h.general θ hθ x

theorem Solves.subst_eq (h : Solves σ τ es) {e : Term × Term} (he : e ∈ es) :
    e.1.subst τ = e.2.subst τ := by
  rw [Term.subst_eq_inst, Term.subst_eq_inst]
  exact h.solved e he

/-- The variables of a term under a solution, if those of the equations have a property. -/
theorem Solves.vars_subst (h : Solves σ τ es) {P : String → Prop}
    (he : ∀ e ∈ es, (∀ y ∈ (e.1.subst σ).vars, P y) ∧ ∀ y ∈ (e.2.subst σ).vars, P y)
    (ht : ∀ y ∈ (t.subst σ).vars, P y) : ∀ y ∈ (t.subst τ).vars, P y := by
  intro y hy
  rw [Term.subst_eq_inst] at hy ht
  obtain ⟨x, hx, hy⟩ := Term.mem_vars_inst.1 hy
  exact h.vars P he x (fun z hz => ht z (Term.mem_vars_inst.2 ⟨x, hx, hz⟩)) y hy

/-- A variable that is free and not in the equations stays free. -/
theorem Solves.value_eq_self (h : Solves σ τ es) {x : String} (hx : σ.value x = .var x)
    (he : ∀ e ∈ es, x ∉ (e.1.subst σ).vars ∧ x ∉ (e.2.subst σ).vars) :
    τ.value x = .var x := by
  -- undo the solution at `x`: that is a solution too, and `τ` is the more general one
  let θ : String → Term := fun y => if y = x then .var x else τ.value y
  have side : ∀ t : Term, x ∉ (t.subst σ).vars → (t.subst σ).inst θ = t.subst τ := by
    intro t ht
    rw [← h.subst_subst t, Term.subst_eq_inst τ]
    refine Term.inst_congr fun y hy => if_neg ?_
    rintro rfl
    exact ht hy
  have hθ : SolvedBy (fun y => (σ.value y).inst θ) es := by
    intro e hm
    rw [← Term.inst_subst, ← Term.inst_subst, side _ (he e hm).1, side _ (he e hm).2, h.subst_eq hm]
  have hgen := h.general θ hθ x
  rw [hx, Term.inst_var] at hgen
  have hθx : θ x = .var x := if_pos rfl
  rw [hθx] at hgen
  cases hv : τ.value x with
  | app f ts => simp [hv] at hgen
  | var y =>
    by_cases hyx : y = x
    · rw [hyx]
    · rw [hv, Term.inst_var] at hgen
      have hy : τ.value y = .var x := (if_neg hyx).symm.trans hgen
      have hi := h.idempotent x
      rw [hv, Term.subst_eq_inst, Term.inst_var, hy] at hi
      exact absurd (Term.var.inj hi).symm hyx

theorem Idempotent.solves_self (h : σ.Idempotent) (he : SolvedBy σ.value es) : Solves σ σ es :=
  ⟨h, h, he, fun _ _ _ => rfl, fun _ _ _ hx => hx⟩

theorem Solves.trans (h : Solves σ τ es) (h' : Solves τ υ fs) : Solves σ υ (es ++ fs) := by
  refine ⟨h'.idempotent, fun x => ?_, ?_, fun θ hθ x => ?_, fun P hP x hx => ?_⟩
  · rw [← h'.extends_value x, ← h.extends_value x, h'.subst_subst]
  · intro e he
    rcases List.mem_append.1 he with he | he
    · rw [← Term.subst_eq_inst, ← Term.subst_eq_inst, ← h'.subst_subst, h.subst_eq he,
        h'.subst_subst]
    · exact h'.solved e he
  · have hes : SolvedBy (fun x => (σ.value x).inst θ) es := fun e he =>
      hθ e (List.mem_append_left _ he)
    rw [← h.general θ hes x]
    refine h'.general θ (fun e he => ?_) x
    rw [Term.inst_congr fun x _ => h.general θ hes x, Term.inst_congr fun x _ => h.general θ hes x]
    exact hθ e (List.mem_append_right _ he)
  · have hes := fun e he => hP e (List.mem_append_left fs he)
    refine h'.vars P (fun e he => ?_) x (h.vars P hes x hx)
    obtain ⟨h1, h2⟩ := hP e (List.mem_append_right es he)
    exact ⟨h.vars_subst hes h1, h.vars_subst hes h2⟩

/-- Equations may be replaced by others that are the same under `σ`. -/
theorem Solves.congr (h : Solves σ τ [(s.subst σ, t.subst σ)]) (hσ : σ.Idempotent) :
    Solves σ τ [(s, t)] := by
  have hs : ∀ θ : String → Term, (s.subst σ).inst (fun x => (σ.value x).inst θ) =
      s.inst fun x => (σ.value x).inst θ := fun θ => by
    rw [← Term.inst_subst, hσ.subst_subst, Term.inst_subst]
  have ht : ∀ θ : String → Term, (t.subst σ).inst (fun x => (σ.value x).inst θ) =
      t.inst fun x => (σ.value x).inst θ := fun θ => by
    rw [← Term.inst_subst, hσ.subst_subst, Term.inst_subst]
  refine ⟨h.idempotent, h.extends_value, ?_, fun θ hθ => ?_, fun P hP => ?_⟩
  · have := h.subst_eq (List.mem_singleton_self _)
    simp only [h.subst_subst] at this
    simpa [SolvedBy, ← Term.subst_eq_inst] using this
  · refine h.general θ ?_
    simpa [SolvedBy, hs, ht] using hθ
  · refine h.vars P ?_
    simpa [hσ.subst_subst] using hP

theorem solvedBy_zip_iff {θ : String → Term} (hl : ss.length = ts.length) :
    SolvedBy θ (ss.zip ts) ↔ ss.map (Term.inst θ) = ts.map (Term.inst θ) := by
  induction ss generalizing ts with
  | nil => cases ts <;> simp_all [SolvedBy]
  | cons s ss ih =>
    cases ts with
    | nil => simp at hl
    | cons t ts =>
      have := ih (Nat.succ.inj hl)
      simp only [SolvedBy, List.zip_cons_cons, List.forall_mem_cons, List.map_cons,
        List.cons.injEq] at this ⊢
      rw [this]

theorem mem_vars_of_mem_zip {f g : String} {e : Term × Term} (he : e ∈ ss.zip ts) (σ : Subst) :
    (∀ y ∈ (e.1.subst σ).vars, y ∈ ((Term.app f ss).subst σ).vars) ∧
      ∀ y ∈ (e.2.subst σ).vars, y ∈ ((Term.app g ts).subst σ).vars := by
  obtain ⟨h1, h2⟩ := List.of_mem_zip he
  simp only [Term.subst_eq_inst, Term.inst_app, Term.vars_app, List.mem_flatMap, List.mem_map]
  exact ⟨fun y hy => ⟨_, ⟨e.1, h1, rfl⟩, hy⟩, fun y hy => ⟨_, ⟨e.2, h2, rfl⟩, hy⟩⟩

/-- Two applications of a symbol are equated by equating their arguments. -/
theorem Solves.app {f : String} (h : Solves σ τ (ss.zip ts)) (hl : ss.length = ts.length) :
    Solves σ τ [(.app f ss, .app f ts)] := by
  have hiff : ∀ θ, SolvedBy θ [(.app f ss, .app f ts)] ↔ SolvedBy θ (ss.zip ts) := fun θ => by
    rw [solvedBy_zip_iff hl]
    simp [SolvedBy]
  refine ⟨h.idempotent, h.extends_value, (hiff _).2 h.solved,
    fun θ hθ => h.general θ ((hiff _).1 hθ), fun P hP => h.vars P fun e he => ?_⟩
  obtain ⟨h1, h2⟩ := hP _ (List.mem_singleton_self _)
  obtain ⟨v1, v2⟩ := mem_vars_of_mem_zip (f := f) (g := f) he σ
  exact ⟨fun y hy => h1 y (v1 y hy), fun y hy => h2 y (v2 y hy)⟩

theorem Solves.swap (h : Solves σ τ [(s, t)]) : Solves σ τ [(t, s)] := by
  refine ⟨h.idempotent, h.extends_value, ?_, fun θ hθ => h.general θ ?_, fun P hP => h.vars P ?_⟩
  · simpa [SolvedBy] using (h.solved _ (List.mem_singleton_self _)).symm
  · simpa [SolvedBy] using (hθ _ (List.mem_singleton_self _)).symm
  · simpa [and_comm] using hP

/-! ### Soundness -/

theorem subst_single_eq_self {x : String} {u : Term} (h : x ∉ u.vars) (t : Term) :
    u.subst (single x t) = u := by
  rw [Term.subst_eq_inst]
  refine Term.inst_eq_self fun y hy => ?_
  have hne : y ≠ x := fun he => h (he ▸ hy)
  rw [value_single, if_neg hne]

theorem value_bind_of_unbound {x : String} (hx : σ.value x = .var x) (t : Term) (y : String) :
    (σ.bind x t).value y = (σ.value y).subst (single x t) := by
  rw [value_bind]
  split
  · next h => rw [h, hx, Term.subst_eq_inst, Term.inst_var, value_single, if_pos rfl]
  · rfl

theorem subst_bind {x : String} (hx : σ.value x = .var x) (t u : Term) :
    u.subst (σ.bind x t) = (u.subst σ).subst (single x t) := by
  rw [Term.subst_subst_eq_inst, Term.subst_eq_inst]
  exact Term.inst_congr fun y _ => value_bind_of_unbound hx t y

theorem subst_single_twice {x : String} (hxt : x ∉ t.vars) (u : Term) :
    (u.subst (single x t)).subst (single x t) = u.subst (single x t) := by
  rw [Term.subst_subst_eq_inst, Term.subst_eq_inst]
  refine Term.inst_congr fun y _ => ?_
  rw [value_single]
  split
  · exact subst_single_eq_self hxt t
  · next h => rw [Term.subst_eq_inst, Term.inst_var, value_single, if_neg h]

/-- Values stay solved when a variable in them is replaced by a solved term. -/
theorem Idempotent.subst_value_single {x : String} (hσ : σ.Idempotent) (ht : t.subst σ = t)
    (y : String) : ((σ.value y).subst (single x t)).subst σ = (σ.value y).subst (single x t) := by
  rw [Term.subst_subst_eq_inst, Term.subst_eq_inst]
  refine Term.inst_congr fun z hz => ?_
  rw [value_single]
  split
  · exact ht
  · have hz' : (σ.value y).inst σ.value = (σ.value y).inst .var := by
      rw [← Term.subst_eq_inst, hσ y, Term.inst_var_eq_self]
    exact Term.inst_eq_inst_iff.1 hz' z hz

/-- Binding a free variable to a term without it solves that equation. -/
theorem Idempotent.solves_bind {x : String} (hσ : σ.Idempotent) (hx : σ.value x = .var x)
    (ht : t.subst σ = t) (hxt : x ∉ t.vars) : Solves σ (σ.bind x t) [(.var x, t)] := by
  refine ⟨fun y => ?_, fun y => ?_, ?_, fun θ hθ y => ?_, fun P hP y hy z hz => ?_⟩
  · rw [value_bind_of_unbound hx, subst_bind hx, hσ.subst_value_single ht, subst_single_twice hxt]
  · rw [subst_bind hx, hσ y, value_bind_of_unbound hx]
  · have hx1 : (Term.var x).subst (single x t) = t := by
      rw [Term.subst_eq_inst, Term.inst_var, value_single, if_pos rfl]
    simp only [SolvedBy, List.forall_mem_singleton, ← Term.subst_eq_inst]
    rw [subst_bind hx, subst_bind hx, ht, subst_single_eq_self hxt]
    rw [Term.subst_eq_inst σ, Term.inst_var, hx, hx1]
  · have he : θ x = t.inst θ := by
      have := hθ _ (List.mem_singleton_self _)
      simpa [hx, ← Term.inst_subst, ht] using this
    rw [value_bind_of_unbound hx, Term.inst_subst]
    refine Term.inst_congr fun z _ => ?_
    rw [value_single]
    split
    · next h => rw [h, he]
    · rfl
  · rw [value_bind_of_unbound hx, Term.subst_eq_inst] at hz
    obtain ⟨w, hw, hz⟩ := Term.mem_vars_inst.1 hz
    rw [value_single] at hz
    split at hz
    · have := (hP _ (List.mem_singleton_self _)).2
      rw [ht] at this
      exact this z hz
    · rw [Term.vars_var, List.mem_singleton] at hz
      exact hz ▸ hy w hw

theorem unifyListWith_solves {unify : Subst → Term → Term → Option Subst}
    (hu : ∀ σ s t τ, Idempotent σ → unify σ s t = some τ → Solves σ τ [(s, t)])
    (hσ : σ.Idempotent) (h : unifyListWith unify σ ss ts = some τ) :
    ss.length = ts.length ∧ Solves σ τ (ss.zip ts) := by
  induction ss generalizing σ ts with
  | nil =>
    cases ts with
    | nil =>
      simp only [unifyListWith, Option.some.injEq] at h
      subst h
      exact ⟨rfl, hσ.solves_self (by simp [SolvedBy])⟩
    | cons t ts => simp [unifyListWith] at h
  | cons s ss ih =>
    cases ts with
    | nil => simp [unifyListWith] at h
    | cons t ts =>
      obtain ⟨υ, h1, h2⟩ := Option.bind_eq_some_iff.1 h
      have hs := hu _ _ _ _ hσ h1
      obtain ⟨hl, hr⟩ := ih hs.idempotent h2
      exact ⟨congrArg Nat.succ hl, hs.trans hr⟩

theorem unifyWithin_solves {depth : Nat} (hσ : σ.Idempotent)
    (h : unifyWithin true depth σ s t = some τ) : Solves σ τ [(s, t)] := by
  induction depth generalizing σ s t τ with
  | zero => simp [unifyWithin] at h
  | succ depth ih =>
    apply Solves.congr _ hσ
    have hs' := hσ.subst_subst s
    have ht' := hσ.subst_subst t
    simp only [unifyWithin] at h
    generalize s.subst σ = s' at *
    generalize t.subst σ = t' at *
    split at h
    · next he =>
      obtain rfl := Option.some.inj h
      exact hσ.solves_self (by simp [SolvedBy, he])
    · next he =>
      split at h
      · next x t' =>
        split at h
        · simp at h
        · next hm =>
          obtain rfl := Option.some.inj h
          exact hσ.solves_bind hs' ht' (by simpa [Term.mentions_iff] using hm)
      · next s' y _ =>
        split at h
        · simp at h
        · next hm =>
          obtain rfl := Option.some.inj h
          exact (hσ.solves_bind ht' hs' (by simpa [Term.mentions_iff] using hm)).swap
      · next f ss g ts =>
        split at h
        · next hf =>
          obtain ⟨hl, hr⟩ := unifyListWith_solves (fun _ _ _ _ => ih) hσ h
          exact hf ▸ hr.app hl
        · simp at h

/-! ### Completeness -/

theorem depth_lt_app {f : String} (h : t ∈ ts) : t.depth < (Term.app f ts).depth := by
  have hle : ∀ ts : List Term, t ∈ ts → t.depth ≤ Term.depthList ts := by
    intro ts ht
    induction ts with
    | nil => simp at ht
    | cons u ts ih =>
      rw [Term.depthList]
      rcases List.mem_cons.1 ht with rfl | ht
      · exact Nat.le_max_left _ _
      · exact Nat.le_trans (ih ht) (Nat.le_max_right _ _)
  cases ts with
  | nil => simp at h
  | cons u us =>
    have := hle _ h
    rw [Term.depthList] at this
    rw [Term.depth]
    omega

theorem unifyListWith_isSome {unify : Subst → Term → Term → Option Subst}
    {θ : String → Term} {Q : Term → Prop}
    (hs : ∀ σ s t τ, Idempotent σ → unify σ s t = some τ → Solves σ τ [(s, t)])
    (hu : ∀ σ s t, Idempotent σ → (s.subst σ).inst θ = (t.subst σ).inst θ →
      Q ((s.subst σ).inst θ) → ∃ τ, unify σ s t = some τ)
    (hσ : σ.Idempotent) (hl : ss.length = ts.length)
    (hθ : SolvedBy (fun x => (σ.value x).inst θ) (ss.zip ts))
    (hQ : ∀ s ∈ ss, Q ((s.subst σ).inst θ)) :
    ∃ τ, unifyListWith unify σ ss ts = some τ := by
  induction ss generalizing σ ts with
  | nil => cases ts <;> simp_all [unifyListWith]
  | cons s ss ih =>
    cases ts with
    | nil => simp at hl
    | cons t ts =>
      have he := hθ (s, t) (by simp)
      simp only [← Term.inst_subst] at he
      obtain ⟨τ, hτ⟩ := hu σ s t hσ he (hQ s (by simp))
      have h1 := hs _ _ _ _ hσ hτ
      have hst : SolvedBy (fun x => (σ.value x).inst θ) [(s, t)] := by
        simpa [SolvedBy, ← Term.inst_subst] using he
      obtain ⟨υ, hυ⟩ := ih h1.idempotent (Nat.succ.inj hl)
        (fun e hm => by
          simp only [← Term.inst_subst, h1.inst_eq hst]
          simpa [← Term.inst_subst] using hθ e (List.mem_cons_of_mem _ hm))
        (fun u hm => by
          rw [h1.inst_eq hst]
          exact hQ u (List.mem_cons_of_mem _ hm))
      exact ⟨υ, by simp [unifyListWith, hτ, hυ]⟩

/-- A variable inside of a larger term cannot have the same instance. -/
theorem not_mem_vars_of_inst_eq {θ : String → Term} {x : String} (hne : Term.var x ≠ t)
    (he : θ x = t.inst θ) : x ∉ t.vars := by
  intro hx
  cases t with
  | var y => simp_all
  | app f us =>
    obtain ⟨u, hu, hxu⟩ := List.mem_flatMap.1 (Term.vars_app f us ▸ hx)
    have h1 := Term.size_inst_le (θ := θ) hxu
    have h2 : (u.inst θ).size < ((Term.app f us).inst θ).size := by
      rw [Term.inst_app]
      exact Term.size_lt_app (List.mem_map_of_mem hu)
    rw [he] at h1
    omega

theorem subst_args_eq_self {f : String} (h : (Term.app f ts).subst σ = .app f ts) :
    ∀ u ∈ ts, u.subst σ = u := by
  simp only [Term.subst, Term.substList_eq_map, Term.app.injEq, true_and] at h
  exact List.map_inj_left.1 (h.trans (List.map_id ts).symm)

/-- Unification succeeds if it may go as deep as some common instance. -/
theorem unifyWithin_isSome {depth : Nat} {θ : String → Term} (hσ : σ.Idempotent)
    (hθ : (s.subst σ).inst θ = (t.subst σ).inst θ) (hd : ((s.subst σ).inst θ).depth < depth) :
    ∃ τ, unifyWithin true depth σ s t = some τ := by
  induction depth generalizing σ s t with
  | zero => omega
  | succ depth ih =>
    have hs' := hσ.subst_subst s
    have ht' := hσ.subst_subst t
    simp only [unifyWithin]
    generalize s.subst σ = s' at *
    generalize t.subst σ = t' at *
    split
    · exact ⟨σ, rfl⟩
    · next hne =>
      split
      · next x =>
        have hx := not_mem_vars_of_inst_eq hne hθ
        simp [← Term.mentions_iff] at hx
        simp [hx]
      · next s' y _ =>
        have hy := not_mem_vars_of_inst_eq (Ne.symm hne) hθ.symm
        simp [← Term.mentions_iff] at hy
        simp [hy]
      · next f ss g ts =>
        simp only [Term.inst_app, Term.app.injEq] at hθ
        have hl : ss.length = ts.length := by simpa using congrArg List.length hθ.2
        rw [if_pos hθ.1]
        refine unifyListWith_isSome (Q := fun u => u.depth < depth)
          (fun _ _ _ _ => unifyWithin_solves) (fun _ _ _ => ih) hσ hl ?_ fun u hu => ?_
        · intro e he
          obtain ⟨h1, h2⟩ := List.of_mem_zip he
          simp only [← Term.inst_subst]
          rw [subst_args_eq_self hs' _ h1, subst_args_eq_self ht' _ h2]
          exact (solvedBy_zip_iff hl).2 hθ.2 e he
        · rw [subst_args_eq_self hs' u hu]
          have := depth_lt_app (f := f) (List.mem_map_of_mem (f := Term.inst θ) hu)
          rw [Term.inst_app] at hd
          omega

end Subst

end Elenchus

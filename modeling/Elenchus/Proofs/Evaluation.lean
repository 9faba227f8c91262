import Elenchus.Proofs.Preliminaries
import Elenchus.Subst.Basic
import Mathlib.Data.List.Induction
import Mathlib.Tactic.ByContra

/-!
Terms under a valuation of their variables. A valuation may go into any domain in which the symbols
have a meaning; with terms as the domain and symbols meaning themselves, evaluation is substitution.
-/

namespace Elenchus

universe u

namespace Term

@[induction_eliminator]
theorem induction {P : Term → Prop} (var : ∀ x, P (.var x))
    (app : ∀ f ts, (∀ t ∈ ts, P t) → P (.app f ts)) (t : Term) : P t := by
  match t with
  | .var x => exact var x
  | .app f ts => exact app f ts fun t _ => induction var app t

section
variable {D : Type u}

mutual
/-- The value of a term, given the meaning of symbols and the values of variables. -/
def eval (fn : String → List D → D) (v : String → D) : Term → D
  | .var x => v x
  | .app f ts => fn f (evalList fn v ts)

def evalList (fn : String → List D → D) (v : String → D) : List Term → List D
  | [] => []
  | t :: ts => t.eval fn v :: evalList fn v ts
end

end

/-- All variables replaced at once. -/
def inst (θ : String → Term) (t : Term) : Term := t.eval .app θ

variable {D : Type u} {fn : String → List D → D} {v w : String → D} {θ η : String → Term}

theorem evalList_eq_map (ts : List Term) : evalList fn v ts = ts.map (eval fn v) := by
  induction ts with
  | nil => rfl
  | cons t ts ih => simp [evalList, ih]

@[simp] theorem eval_var (x : String) : (Term.var x).eval fn v = v x := rfl

@[simp] theorem eval_app (f : String) (ts : List Term) :
    (Term.app f ts).eval fn v = fn f (ts.map (eval fn v)) := by
  rw [eval, evalList_eq_map]

@[simp] theorem inst_var (x : String) : (Term.var x).inst θ = θ x := rfl

@[simp] theorem inst_app (f : String) (ts : List Term) :
    (Term.app f ts).inst θ = .app f (ts.map (inst θ)) :=
  eval_app f ts

@[simp] theorem vars_var (x : String) : (Term.var x).vars = [x] := rfl

theorem varsList_eq_flatMap (ts : List Term) : varsList ts = ts.flatMap vars := by
  induction ts with
  | nil => rfl
  | cons t ts ih => simp [varsList, ih]

theorem symbolsList_eq_flatMap (ts : List Term) : symbolsList ts = ts.flatMap symbols := by
  induction ts with
  | nil => rfl
  | cons t ts ih => simp [symbolsList, ih]

@[simp] theorem vars_app (f : String) (ts : List Term) : (Term.app f ts).vars = ts.flatMap vars :=
  varsList_eq_flatMap ts

theorem size_le_sizeList {t : Term} {ts : List Term} (h : t ∈ ts) : t.size ≤ sizeList ts := by
  induction ts with
  | nil => simp at h
  | cons u ts ih =>
    rw [sizeList]
    rcases List.mem_cons.1 h with rfl | h
    · omega
    · have := ih h
      omega

theorem size_lt_app {f : String} {t : Term} {ts : List Term} (h : t ∈ ts) :
    t.size < (Term.app f ts).size := by
  have := size_le_sizeList h
  simp only [size]
  omega

theorem mentionsList_iff {x : String} {ts : List Term} :
    mentionsList x ts = true ↔ ∃ t ∈ ts, t.mentions x = true := by
  induction ts with
  | nil => simp [mentionsList]
  | cons t ts ih => simp [mentionsList, ih]

theorem mentions_iff {x : String} {t : Term} : t.mentions x = true ↔ x ∈ t.vars := by
  induction t with
  | var y => simp [mentions]
  | app f ts ih =>
    simp only [mentions, mentionsList_iff, vars_app, List.mem_flatMap]
    exact exists_congr fun t => and_congr_right fun ht => ih t ht

theorem eval_congr {t : Term} (h : ∀ x ∈ t.vars, v x = w x) : t.eval fn v = t.eval fn w := by
  induction t with
  | var x => exact h x (by simp)
  | app f ts ih =>
    rw [eval_app, eval_app]
    congr 1
    refine List.map_congr_left fun t ht => ih t ht fun x hx => h x ?_
    simpa using ⟨t, ht, hx⟩

theorem inst_congr {t : Term} (h : ∀ x ∈ t.vars, θ x = η x) : t.inst θ = t.inst η := eval_congr h

theorem eval_inst (t : Term) :
    (t.inst θ).eval fn v = t.eval fn fun x => (θ x).eval fn v := by
  induction t with
  | var x => rfl
  | app f ts ih =>
    simp only [inst_app, eval_app, List.map_map]
    congr 1
    exact List.map_congr_left ih

theorem inst_inst (t : Term) : (t.inst θ).inst η = t.inst fun x => (θ x).inst η := eval_inst t

theorem inst_var_eq_self (t : Term) : t.inst .var = t := by
  induction t with
  | var x => rfl
  | app f ts ih => rw [inst_app, List.map_congr_left ih, List.map_id']

theorem inst_eq_self {t : Term} (h : ∀ x ∈ t.vars, θ x = .var x) : t.inst θ = t :=
  (inst_congr h).trans (inst_var_eq_self t)

/-- Terms are free: an instance determines the values of the variables that occur. -/
theorem inst_eq_inst_iff {t : Term} : t.inst θ = t.inst η ↔ ∀ x ∈ t.vars, θ x = η x := by
  refine ⟨fun h => ?_, inst_congr⟩
  induction t with
  | var x => simpa using h
  | app f ts ih =>
    simp only [inst_app, app.injEq, true_and, List.map_inj_left] at h
    intro x hx
    obtain ⟨t, ht, hx⟩ := List.mem_flatMap.1 (vars_app f ts ▸ hx)
    exact ih t ht (h t ht) x hx

theorem mem_vars_inst {t : Term} {x : String} :
    x ∈ (t.inst θ).vars ↔ ∃ y ∈ t.vars, x ∈ (θ y).vars := by
  induction t with
  | var y => simp
  | app f ts ih =>
    simp only [inst_app, vars_app, List.mem_flatMap, List.mem_map]
    constructor
    · rintro ⟨_, ⟨t, ht, rfl⟩, hx⟩
      obtain ⟨y, hy, hx⟩ := (ih t ht).1 hx
      exact ⟨y, ⟨t, ht, hy⟩, hx⟩
    · rintro ⟨y, ⟨t, ht, hy⟩, hx⟩
      exact ⟨_, ⟨t, ht, rfl⟩, (ih t ht).2 ⟨y, hy, hx⟩⟩

theorem mem_symbols_inst {t : Term} {s : Symbol} :
    s ∈ (t.inst θ).symbols ↔ s ∈ t.symbols ∨ ∃ x ∈ t.vars, s ∈ (θ x).symbols := by
  induction t with
  | var x => simp [symbols]
  | app f ts ih =>
    simp only [inst_app, symbols, symbolsList_eq_flatMap, vars_app, List.length_map, List.mem_cons,
      List.mem_flatMap, List.mem_map]
    constructor
    · rintro (rfl | ⟨_, ⟨t, ht, rfl⟩, hs⟩)
      · exact Or.inl (Or.inl rfl)
      · rcases (ih t ht).1 hs with hs | ⟨x, hx, hs⟩
        · exact Or.inl (Or.inr ⟨t, ht, hs⟩)
        · exact Or.inr ⟨x, ⟨t, ht, hx⟩, hs⟩
    · rintro ((rfl | ⟨t, ht, hs⟩) | ⟨x, ⟨t, ht, hx⟩, hs⟩)
      · exact Or.inl rfl
      · exact Or.inr ⟨_, ⟨t, ht, rfl⟩, (ih t ht).2 (Or.inl hs)⟩
      · exact Or.inr ⟨_, ⟨t, ht, rfl⟩, (ih t ht).2 (Or.inr ⟨x, hx, hs⟩)⟩

/-- A variable is no larger than a term that it occurs in, under any instance. -/
theorem size_inst_le {t : Term} {x : String} (h : x ∈ t.vars) : (θ x).size ≤ (t.inst θ).size := by
  induction t with
  | var y => simp_all
  | app f ts ih =>
    obtain ⟨t, ht, hx⟩ := List.mem_flatMap.1 (vars_app f ts ▸ h)
    have hlt : (t.inst θ).size < ((Term.app f ts).inst θ).size := by
      rw [inst_app]
      exact size_lt_app (List.mem_map_of_mem ht)
    exact Nat.le_trans (ih t ht hx) (Nat.le_of_lt hlt)

end Term

namespace Subst

/-- The term that stands for a variable. -/
def value (σ : Subst) (x : String) : Term := (σ.get? x).getD (.var x)

theorem value_of_get? {σ : Subst} {x : String} {t : Term} (h : σ.get? x = some t) :
    σ.value x = t := by
  simp [value, h]

end Subst

theorem Term.subst_eq_inst (σ : Subst) (t : Term) : t.subst σ = t.inst σ.value := by
  induction t with
  | var x => rfl
  | app f ts ih =>
    rw [Term.subst, Term.substList_eq_map, Term.inst_app, List.map_congr_left ih]

theorem Term.eval_subst {D : Type u} {fn : String → List D → D} {v : String → D} (σ : Subst)
    (t : Term) : (t.subst σ).eval fn v = t.eval fn fun x => (σ.value x).eval fn v := by
  rw [Term.subst_eq_inst, Term.eval_inst]

theorem Term.inst_subst {θ : String → Term} (σ : Subst) (t : Term) :
    (t.subst σ).inst θ = t.inst fun x => (σ.value x).inst θ :=
  Term.eval_subst σ t

theorem Term.subst_subst_eq_inst (σ τ : Subst) (t : Term) :
    (t.subst σ).subst τ = t.inst fun x => (σ.value x).subst τ := by
  simp only [Term.subst_eq_inst, Term.inst_inst]

namespace Subst

variable {σ : Subst} {x y : String} {t : Term}

@[simp] theorem get?_empty (x : String) : empty.get? x = none := rfl

@[simp] theorem value_empty (x : String) : empty.value x = .var x := rfl

theorem get?_pin (σ : Subst) (x : String) (t : Term) (y : String) :
    (σ.pin x t).get? y = if y = x then some t else σ.get? y :=
  lookup_put x t σ.bindings y

theorem value_pin (σ : Subst) (x : String) (t : Term) (y : String) :
    (σ.pin x t).value y = if y = x then t else σ.value y := by
  rw [value, get?_pin]
  split <;> rfl

/-- Bindings are found by their variable, because no variable has two. -/
theorem get?_eq_some_iff : σ.get? x = some t ↔ (x, t) ∈ σ.bindings :=
  ⟨mem_of_lookup_eq_some, lookup_eq_some_of_mem σ.nodup⟩

theorem value_proper (σ : Subst) (x : String) : σ.proper.value x = σ.value x := by
  cases h : σ.get? x with
  | none =>
    have hp : σ.proper.get? x = none := by
      rw [Option.eq_none_iff_forall_ne_some]
      intro t ht
      have hm := List.mem_filter.1 (get?_eq_some_iff.1 ht)
      simp [get?_eq_some_iff.2 hm.1] at h
    simp [value, h, hp]
  | some t =>
    by_cases hi : t = .var x
    · have hp : σ.proper.get? x = none := by
        rw [Option.eq_none_iff_forall_ne_some]
        intro u hu
        have hm := List.mem_filter.1 (get?_eq_some_iff.1 hu)
        have he : t = u := Option.some.inj (h.symm.trans (get?_eq_some_iff.2 hm.1))
        simp [isIdentity, ← he, hi] at hm
      simp [value, h, hp, hi]
    · have hp : σ.proper.get? x = some t := by
        rw [get?_eq_some_iff]
        exact List.mem_filter.2 ⟨get?_eq_some_iff.1 h, by simpa [isIdentity] using hi⟩
      simp [value, h, hp]

theorem get?_mapValues (σ : Subst) (f : Term → Term) (x : String) :
    (σ.mapValues f).get? x = (σ.get? x).map f := by
  obtain ⟨bs, hn⟩ := σ
  simp only [get?, mapValues]
  clear hn
  induction bs with
  | nil => rfl
  | cons b bs ih =>
    obtain ⟨y, u⟩ := b
    rw [List.map_cons, lookup_cons_ite, lookup_cons_ite, ih]
    split <;> rfl

theorem value_single (x : String) (t : Term) (y : String) :
    (single x t).value y = if y = x then t else .var y := by
  simp [single, ofList, value_proper, value_pin]

theorem value_bind (σ : Subst) (x : String) (t : Term) (y : String) :
    (σ.bind x t).value y = if y = x then t else (σ.value y).subst (single x t) := by
  rw [bind, value_proper, value_pin]
  split
  · rfl
  · next h =>
    rw [value, get?_mapValues, value]
    cases σ.get? y with
    | none => simp [Term.subst_eq_inst, value_single, h]
    | some u => rfl

/-- Of several pairs for a variable the last one counts. -/
theorem value_ofList (ps : List (String × Term)) (x : String) :
    (ofList ps).value x = (ps.reverse.lookup x).getD (.var x) := by
  rw [ofList, value_proper]
  induction ps using List.reverseRecOn with
  | nil => rfl
  | append_singleton ps p ih =>
    rw [List.foldl_append, List.foldl_cons, List.foldl_nil, value_pin, ih, List.reverse_append,
      List.reverse_singleton, List.singleton_append]
    rw [lookup_cons_ite]
    split <;> rfl

end Subst

end Elenchus

import Elenchus.Clause.Basic
import Elenchus.Proofs.UnificationDepth

/-!
Instances of literals, and what unification, matching and subsumption of literals and clauses
establish. An atom is unified like the term with its predicate in front.
-/

namespace Elenchus

variable {θ η : String → Term} {σ τ : Subst} {a b : Atom} {l m : Literal} {x y : String}

namespace Atom

def inst (θ : String → Term) (a : Atom) : Atom := { a with args := a.args.map (Term.inst θ) }

/-- The atom as a term. -/
def term (a : Atom) : Term := .app a.pred a.args

@[simp] theorem vars_term (a : Atom) : a.term.vars = a.vars := rfl

theorem term_inj : a.term = b.term ↔ a = b := by
  cases a
  cases b
  simp [term]

theorem term_inst (θ : String → Term) (a : Atom) : (a.inst θ).term = a.term.inst θ := by
  simp [term, inst]

theorem term_subst (σ : Subst) (a : Atom) : (a.subst σ).term = a.term.subst σ := by
  simp [term, subst, Term.subst, Term.substList_eq_map]

theorem subst_eq_inst (σ : Subst) (a : Atom) : a.subst σ = a.inst σ.value := by
  rw [← term_inj, term_subst, term_inst, Term.subst_eq_inst]

theorem subst_empty (a : Atom) : a.subst .empty = a := by
  rw [subst_eq_inst, ← term_inj, term_inst]
  exact Term.inst_var_eq_self a.term

theorem inst_inst (a : Atom) : (a.inst θ).inst η = a.inst fun x => (θ x).inst η := by
  simp only [← term_inj, term_inst, Term.inst_inst]

theorem inst_congr (h : ∀ x ∈ a.vars, θ x = η x) : a.inst θ = a.inst η := by
  simp only [← term_inj, term_inst]
  exact Term.inst_congr h

theorem mem_vars_inst : x ∈ (a.inst θ).vars ↔ ∃ y ∈ a.vars, x ∈ (θ y).vars := by
  simp only [← vars_term, term_inst, Term.mem_vars_inst]

@[simp] theorem predicate_inst : (a.inst θ).predicate = a.predicate := by
  simp [predicate, inst]

@[simp] theorem predicate_subst (σ : Subst) : (a.subst σ).predicate = a.predicate := by
  rw [subst_eq_inst, predicate_inst]

theorem mem_symbols_inst {s : Symbol} :
    s ∈ (a.inst θ).symbols ↔ s ∈ a.symbols ∨ ∃ x ∈ a.vars, s ∈ (θ x).symbols := by
  simp only [symbols, inst, Term.symbolsList_eq_flatMap, vars, Term.varsList_eq_flatMap,
    List.mem_flatMap, List.mem_map]
  constructor
  · rintro ⟨_, ⟨t, ht, rfl⟩, hs⟩
    rcases Term.mem_symbols_inst.1 hs with hs | ⟨x, hx, hs⟩
    · exact Or.inl ⟨t, ht, hs⟩
    · exact Or.inr ⟨x, ⟨t, ht, hx⟩, hs⟩
  · rintro (⟨t, ht, hs⟩ | ⟨x, ⟨t, ht, hx⟩, hs⟩)
    · exact ⟨_, ⟨t, ht, rfl⟩, Term.mem_symbols_inst.2 (Or.inl hs)⟩
    · exact ⟨_, ⟨t, ht, rfl⟩, Term.mem_symbols_inst.2 (Or.inr ⟨x, hx, hs⟩)⟩

end Atom

namespace Literal

def inst (θ : String → Term) (l : Literal) : Literal := { l with atom := l.atom.inst θ }

@[simp] theorem inst_positive : (l.inst θ).positive = l.positive := rfl

@[simp] theorem inst_negate : l.negate.inst θ = (l.inst θ).negate := rfl

@[simp] theorem negate_negate : l.negate.negate = l := by
  simp [negate]

theorem negate_ne : l.negate ≠ l := fun h => by
  simpa [negate] using congrArg positive h

theorem eq_negate_iff : m = l.negate ↔ l.positive ≠ m.positive ∧ l.atom = m.atom := by
  obtain ⟨a, p⟩ := l
  obtain ⟨b, q⟩ := m
  cases p <;> cases q <;> simp [negate, eq_comm]

theorem subst_eq_inst (σ : Subst) (l : Literal) : l.subst σ = l.inst σ.value := by
  simp [subst, inst, Atom.subst_eq_inst]

theorem inst_inst (l : Literal) : (l.inst θ).inst η = l.inst fun x => (θ x).inst η := by
  simp [inst, Atom.inst_inst]

theorem inst_congr (h : ∀ x ∈ l.vars, θ x = η x) : l.inst θ = l.inst η := by
  simp only [inst, Atom.inst_congr h]

theorem inst_subst (σ : Subst) (l : Literal) :
    (l.subst σ).inst θ = l.inst fun x => (σ.value x).inst θ := by
  rw [subst_eq_inst, inst_inst]

theorem inst_var_eq_self (l : Literal) : l.inst .var = l := by
  have : l.atom.inst .var = l.atom := by
    rw [← Atom.term_inj, Atom.term_inst, Term.inst_var_eq_self]
  simp [inst, this]

theorem subst_eq_self (h : ∀ x ∈ l.vars, σ.value x = .var x) : l.subst σ = l := by
  rw [subst_eq_inst, inst_congr h, inst_var_eq_self]

theorem mem_vars_inst : x ∈ (l.inst θ).vars ↔ ∃ y ∈ l.vars, x ∈ (θ y).vars := Atom.mem_vars_inst

end Literal

/-! ### Unification -/

namespace Subst

theorem unifyAtoms_solves (hσ : σ.Idempotent) (h : unifyAtoms true σ a b = some τ) :
    Solves σ τ [(a.term, b.term)] := by
  rw [unifyAtoms] at h
  split at h
  · next hp =>
    obtain ⟨hl, hs⟩ := unifyList_solves hσ h
    rw [Atom.term, Atom.term, (Symbol.mk.inj hp).1]
    exact hs.app hl
  · simp at h

theorem unifyAtoms_isSome (hσ : σ.Idempotent)
    (h : (a.subst σ).inst θ = (b.subst σ).inst θ) : ∃ τ, unifyAtoms true σ a b = some τ := by
  simp only [Atom.subst_eq_inst, Atom.inst_inst] at h
  have hargs : a.args.map (Term.inst fun x => (σ.value x).inst θ) =
      b.args.map (Term.inst fun x => (σ.value x).inst θ) := congrArg Atom.args h
  have hl : a.args.length = b.args.length := by simpa using congrArg List.length hargs
  have hp : a.predicate = b.predicate := by
    have : a.pred = b.pred := (Atom.mk.inj h).1
    rw [Atom.predicate, Atom.predicate, this, hl]
  rw [unifyAtoms, if_pos hp]
  exact unifyList_isSome hσ hl ((solvedBy_zip_iff hl).2 hargs)

theorem Solves.atom_eq (h : Solves σ τ [(a.term, b.term)]) : a.subst τ = b.subst τ := by
  rw [← Atom.term_inj, Atom.term_subst, Atom.term_subst]
  exact h.subst_eq (List.mem_singleton_self _)

/-- A solution already contains what it extends. -/
theorem Solves.literal_subst {es : List (Term × Term)} (h : Solves σ τ es) (l : Literal) :
    (l.subst σ).subst τ = l.subst τ := by
  rw [Literal.subst_eq_inst τ, Literal.inst_subst, Literal.subst_eq_inst τ]
  exact Literal.inst_congr fun x _ => by rw [← Term.subst_eq_inst, h.extends_value]

theorem unifyOpposite_eq_some (h : unifyOpposite true σ l m = some τ) :
    l.positive ≠ m.positive ∧ unifyAtoms true σ l.atom m.atom = some τ := by
  rw [unifyOpposite] at h
  split at h
  · simp at h
  · next hp => exact ⟨hp, h⟩

theorem unifyAlike_eq_some (h : unifyAlike true σ l m = some τ) :
    l.positive = m.positive ∧ unifyAtoms true σ l.atom m.atom = some τ := by
  rw [unifyAlike] at h
  split at h
  · next hp => exact ⟨hp, h⟩
  · simp at h

/-! ### Matching -/

/-- `τ` extends `σ` by values for the variables of the pattern, and takes it to the target. -/
structure Matches (σ τ : Subst) (p t : Term) : Prop where
  keeps : ∀ x u, σ.get? x = some u → τ.get? x = some u
  bound : ∀ x ∈ p.vars, ∃ u, τ.get? x = some u
  eq : p.subst τ = t
  new : ∀ x u, τ.get? x = some u → σ.get? x = some u ∨ x ∈ p.vars ∧ ∀ y ∈ u.vars, y ∈ t.vars

/-- Values that are set stay, so a pattern that has been taken to its target stays there. -/
theorem Matches.subst_eq {υ : Subst} {p t : Term} (h : Matches σ τ p t)
    (hυ : ∀ x u, τ.get? x = some u → υ.get? x = some u) : p.subst υ = t := by
  rw [← h.eq, Term.subst_eq_inst, Term.subst_eq_inst]
  refine Term.inst_congr fun x hx => ?_
  obtain ⟨u, hu⟩ := h.bound x hx
  rw [value_of_get? hu, value_of_get? (hυ x u hu)]

theorem matchList_matches {f : String} {ps ts : List Term}
    (ih : ∀ p ∈ ps, ∀ σ τ t, matchTerm σ p t = some τ → Matches σ τ p t)
    (h : matchList σ ps ts = some τ) : Matches σ τ (.app f ps) (.app f ts) := by
  induction ps generalizing σ ts with
  | nil =>
    cases ts with
    | nil =>
      simp only [matchList, Option.some.injEq] at h
      subst h
      exact ⟨fun _ _ h => h, by simp, rfl, fun _ _ h => Or.inl h⟩
    | cons t ts => simp [matchList] at h
  | cons p ps ih' =>
    cases ts with
    | nil => simp [matchList] at h
    | cons t ts =>
      obtain ⟨υ, h1, h2⟩ := Option.bind_eq_some_iff.1 (by simpa only [matchList] using h)
      have m1 := ih p (by simp) σ υ t h1
      have m2 := ih' (fun q hq => ih q (by simp [hq])) h2
      have hargs : ps.map (Term.subst τ) = ts := by
        simpa [Term.subst, Term.substList_eq_map] using m2.eq
      refine ⟨fun x u hx => m2.keeps x u (m1.keeps x u hx), fun x hx => ?_, ?_, fun x u hx => ?_⟩
      · rw [Term.vars_app, List.flatMap_cons, List.mem_append] at hx
        rcases hx with hx | hx
        · obtain ⟨u, hu⟩ := m1.bound x hx
          exact ⟨u, m2.keeps x u hu⟩
        · exact m2.bound x (by rwa [Term.vars_app])
      · simp [Term.subst, Term.substList_eq_map, hargs, m1.subst_eq m2.keeps]
      · rcases m2.new x u hx with hx | ⟨hp, hu⟩
        · rcases m1.new x u hx with hx | ⟨hp, hu⟩
          · exact Or.inl hx
          · exact Or.inr ⟨by simp [hp], fun y hy => by simp [hu y hy]⟩
        · simp only [Term.vars_app, List.flatMap_cons, List.mem_append] at hp hu ⊢
          exact Or.inr ⟨Or.inr hp, fun y hy => Or.inr (hu y hy)⟩

theorem matchTerm_matches {p t : Term} (h : matchTerm σ p t = some τ) : Matches σ τ p t := by
  induction p generalizing σ τ t with
  | var x =>
    simp only [matchTerm] at h
    split at h
    · next u hu =>
      split at h
      · next hut =>
        cases h
        refine ⟨fun _ _ h => h, ?_, ?_, fun _ _ h => Or.inl h⟩
        · simpa using ⟨u, hu⟩
        · rw [← hut, Term.subst_eq_inst, Term.inst_var, value_of_get? hu]
      · simp at h
    · next hx =>
      cases h
      refine ⟨fun y u hy => ?_, ?_, ?_, fun y u hy => ?_⟩
      · have hne : y ≠ x := by
          rintro rfl
          simp [hx] at hy
        rwa [get?_pin, if_neg hne]
      · simp [get?_pin]
      · rw [Term.subst_eq_inst, Term.inst_var, value_pin, if_pos rfl]
      · rw [get?_pin] at hy
        split at hy
        · next he =>
          cases hy
          exact Or.inr ⟨by simp [he], fun _ h => h⟩
        · exact Or.inl hy
  | app f ps ih =>
    cases t with
    | var y => simp [matchTerm] at h
    | app g ts =>
      simp only [matchTerm] at h
      split at h
      · next hfg =>
        subst hfg
        exact matchList_matches (fun p hp σ τ t => ih p hp) h
      · simp at h

theorem matchLiteral_matches (h : matchLiteral σ l m = some τ) :
    l.positive = m.positive ∧ Matches σ τ l.atom.term m.atom.term := by
  rw [matchLiteral] at h
  split at h
  · next hp =>
    refine ⟨hp.1, ?_⟩
    rw [Atom.term, Atom.term, hp.2]
    exact matchList_matches (fun p _ σ τ t => matchTerm_matches) h
  · simp at h

theorem Matches.literal_eq {υ : Subst} (h : Matches σ τ l.atom.term m.atom.term)
    (hp : l.positive = m.positive) (hυ : ∀ x u, τ.get? x = some u → υ.get? x = some u) :
    l.subst υ = m := by
  obtain ⟨a, p⟩ := l
  obtain ⟨b, q⟩ := m
  have he := h.subst_eq hυ
  rw [← Atom.term_subst, Atom.term_inj] at he
  simp_all [Literal.subst]

/-- All values are those of `θ`. -/
def Agrees (σ : Subst) (θ : String → Term) : Prop := ∀ x u, σ.get? x = some u → u = θ x

theorem agrees_empty (θ : String → Term) : Agrees .empty θ := by
  intro x u h
  simp at h

theorem Agrees.pin (h : σ.Agrees θ) (x : String) : (σ.pin x (θ x)).Agrees θ := by
  intro y u hy
  rw [get?_pin] at hy
  split at hy
  · next he =>
    cases hy
    rw [he]
  · exact h y u hy

theorem Agrees.matchList {ps : List Term}
    (ih : ∀ p ∈ ps, ∀ σ : Subst, σ.Agrees θ →
      ∃ τ, matchTerm σ p (p.inst θ) = some τ ∧ τ.Agrees θ) (h : σ.Agrees θ) :
    ∃ τ, Subst.matchList σ ps (ps.map (Term.inst θ)) = some τ ∧ τ.Agrees θ := by
  induction ps generalizing σ with
  | nil => exact ⟨σ, rfl, h⟩
  | cons p ps ih' =>
    obtain ⟨υ, hυ, hagrees⟩ := ih p (List.mem_cons_self ..) σ h
    obtain ⟨τ, hτ, hτθ⟩ := ih' (fun q hq => ih q (List.mem_cons_of_mem _ hq)) hagrees
    refine ⟨τ, ?_, hτθ⟩
    rw [List.map_cons, Subst.matchList, hυ, Option.bind_some, hτ]

/-- A pattern matches its instances, and what gets bound has the values of the instance. -/
theorem Agrees.matchTerm (h : σ.Agrees θ) (p : Term) :
    ∃ τ, Subst.matchTerm σ p (p.inst θ) = some τ ∧ τ.Agrees θ := by
  induction p generalizing σ with
  | var x =>
    rw [Term.inst_var, Subst.matchTerm]
    cases hx : σ.get? x with
    | none => exact ⟨_, rfl, h.pin x⟩
    | some u =>
      have hu : u = θ x := h x u hx
      exact ⟨σ, if_pos hu, h⟩
  | app f ps ih =>
    obtain ⟨τ, hτ, hτθ⟩ := h.matchList fun p hp σ hσ => ih p hp hσ
    refine ⟨τ, ?_, hτθ⟩
    rw [Term.inst_app, Subst.matchTerm, if_pos rfl, hτ]

theorem Agrees.matchLiteral (h : σ.Agrees θ) (l : Literal) :
    ∃ τ, Subst.matchLiteral σ l (l.inst θ) = some τ ∧ τ.Agrees θ := by
  obtain ⟨τ, hτ, hτθ⟩ :=
    Agrees.matchList (fun p (_ : p ∈ l.atom.args) σ hσ => hσ.matchTerm p) h
  refine ⟨τ, ?_, hτθ⟩
  rw [Subst.matchLiteral, if_pos ⟨rfl, rfl⟩]
  exact hτ

/-- A literal matches its instances and nothing else. -/
theorem isSome_matchLiteral_iff :
    (matchLiteral .empty l m).isSome = true ↔ ∃ θ : String → Term, l.inst θ = m := by
  rw [Option.isSome_iff_exists]
  constructor
  · rintro ⟨σ, hσ⟩
    obtain ⟨hp, hmatch⟩ := matchLiteral_matches hσ
    exact ⟨σ.value, l.subst_eq_inst σ ▸ hmatch.literal_eq hp fun _ _ h => h⟩
  · rintro ⟨θ, rfl⟩
    obtain ⟨τ, hτ, -⟩ := (agrees_empty θ).matchLiteral l
    exact ⟨τ, hτ⟩

/-- Finitely many variables are enough for an instance. -/
theorem exists_subst_eq_iff : (∃ σ : Subst, l.subst σ = m) ↔ ∃ θ : String → Term, l.inst θ = m := by
  refine ⟨fun ⟨σ, hσ⟩ => ⟨σ.value, l.subst_eq_inst σ ▸ hσ⟩, fun h => ?_⟩
  obtain ⟨σ, hσ⟩ := Option.isSome_iff_exists.1 (isSome_matchLiteral_iff.2 h)
  obtain ⟨hp, hmatch⟩ := matchLiteral_matches hσ
  exact ⟨σ, hmatch.literal_eq hp fun _ _ h => h⟩

end Subst

/-! ### Clauses -/

namespace Clause

variable {c d e : Clause} {ls : List Literal}

@[simp] theorem mem_ofList : l ∈ (ofList ls).literals ↔ l ∈ ls := List.mem_eraseDups

theorem literals_ofList (h : ls.Nodup) : (ofList ls).literals = ls := eraseDups_of_nodup h

theorem mem_vars : x ∈ c.vars ↔ ∃ l ∈ c.literals, x ∈ l.vars := by
  simp [vars, List.mem_eraseDups]

theorem nodup_vars (c : Clause) : c.vars.Nodup := nodup_eraseDups _

theorem alike_iff : c.alike d = true ↔ c.length = d.length ∧ c.literals ⊆ d.literals := by
  simp [alike, List.subset_def]

theorem alike_self (c : Clause) : c.alike c = true := alike_iff.2 ⟨rfl, List.Subset.refl _⟩

theorem mem_iff_of_alike (h : c.alike d = true) : l ∈ c.literals ↔ l ∈ d.literals := by
  obtain ⟨hl, hs⟩ := alike_iff.1 h
  have hp : c.literals.Perm d.literals :=
    (c.nodup.subperm hs).perm_of_length_le (Nat.le_of_eq hl.symm)
  exact hp.mem_iff

theorem alike_symm (h : c.alike d = true) : d.alike c = true :=
  alike_iff.2 ⟨(alike_iff.1 h).1.symm, fun _ hl => (mem_iff_of_alike h).2 hl⟩

/-- `c` maps into `d`, and is not the longer clause. -/
def Covers (c d : Clause) : Prop :=
  c.length ≤ d.length ∧ ∃ θ : String → Term, ∀ l ∈ c.literals, l.inst θ ∈ d.literals

theorem Covers.refl (c : Clause) : c.Covers c :=
  ⟨Nat.le_refl _, .var, fun l hl => (Literal.inst_var_eq_self l).symm ▸ hl⟩

theorem Covers.trans (h : c.Covers d) (h' : d.Covers e) : c.Covers e := by
  obtain ⟨hl, θ, hθ⟩ := h
  obtain ⟨hl', η, hη⟩ := h'
  refine ⟨Nat.le_trans hl hl', fun x => (θ x).inst η, fun l hm => ?_⟩
  rw [← Literal.inst_inst]
  exact hη _ (hθ l hm)

theorem Covers.of_alike (h : c.alike d = true) : c.Covers d := by
  obtain ⟨hl, hs⟩ := alike_iff.1 h
  exact ⟨Nat.le_of_eq hl, .var, fun l hm => (Literal.inst_var_eq_self l).symm ▸ hs hm⟩

theorem coversFrom_covers {targets : List Literal} (h : coversFrom targets σ ls = true) :
    ∃ τ : Subst, (∀ x u, σ.get? x = some u → τ.get? x = some u) ∧
      ∀ l ∈ ls, l.subst τ ∈ targets := by
  induction ls generalizing σ with
  | nil => exact ⟨σ, fun _ _ h => h, by simp⟩
  | cons p ps ih =>
    simp only [coversFrom, List.any_eq_true] at h
    obtain ⟨t, ht, h⟩ := h
    split at h
    · next υ hυ =>
      obtain ⟨τ, hkeep, hτ⟩ := ih h
      obtain ⟨hp, hm⟩ := Subst.matchLiteral_matches hυ
      refine ⟨τ, fun x u hx => hkeep x u (hm.keeps x u hx), ?_⟩
      intro l hl
      rcases List.mem_cons.1 hl with rfl | hl
      · exact (hm.literal_eq hp hkeep).symm ▸ ht
      · exact hτ l hl
    · simp at h

/-- No branch of the search for a substitution is given up too early: where every literal has its
target under `θ`, the branch that follows `θ` goes through. -/
theorem coversFrom_of_agrees {targets : List Literal} (hσ : σ.Agrees θ)
    (h : ∀ l ∈ ls, l.inst θ ∈ targets) : coversFrom targets σ ls = true := by
  induction ls generalizing σ with
  | nil => rfl
  | cons l ls ih =>
    obtain ⟨τ, hτ, hτθ⟩ := hσ.matchLiteral l
    rw [coversFrom, List.any_eq_true]
    refine ⟨l.inst θ, h l (List.mem_cons_self ..), ?_⟩
    simp only [hτ]
    exact ih hτθ fun m hm => h m (List.mem_cons_of_mem _ hm)

theorem subsumes_iff : c.subsumes d = true ↔ c.Covers d := by
  rw [subsumes, Bool.and_eq_true, decide_eq_true_eq]
  refine and_congr_right fun _ => ⟨fun h => ?_, ?_⟩
  · obtain ⟨τ, -, hτ⟩ := coversFrom_covers h
    refine ⟨τ.value, fun l hl => ?_⟩
    rw [← Literal.subst_eq_inst]
    exact hτ l (List.mem_mergeSort.2 hl)
  · rintro ⟨θ, hθ⟩
    exact coversFrom_of_agrees (Subst.agrees_empty θ) fun l hl => hθ l (List.mem_mergeSort.1 hl)

/-- A clause has the keys of every clause that covers it. -/
theorem Covers.keys (h : c.Covers d) : c.keys.all d.keys.contains = true := by
  obtain ⟨-, θ, hθ⟩ := h
  rw [List.all_eq_true]
  intro k hk
  obtain ⟨l, hl, rfl⟩ := List.mem_map.1 hk
  have hkey : (l.inst θ).key = l.key := by
    simp [Literal.key, Literal.inst, Atom.inst]
  rw [List.contains_iff_mem, ← hkey]
  exact List.mem_map_of_mem (hθ l hl)

end Clause

end Elenchus

import Elenchus.Proofs.Lifting
import Elenchus.Proofs.StandardizedApart

/-!
Units for several literals at once: hyperresolution finds every choice of them, and finds it once.
-/

namespace Elenchus

/-! ### Copies and common unifiers -/

/-- `m` is the literal of the unit clause `u` in a copy that has no variable in common with `c`. -/
def Clause.CopyOf (c u : Clause) (m : Literal) : Prop :=
  ∃ ρ k, RenamesApart ρ c u ∧ u.literals = [k] ∧ m = k.inst fun x => .var (ρ x)

/-- Copies of unit clauses that have no variable in common with `c` or with each other. -/
structure Clause.Copies (c : Clause) (us : List Filed) (ms : List Literal) : Prop where
  copyOf : List.Forall₂ (fun u m => c.CopyOf u.clause m) us ms
  apart : ms.Pairwise Literal.Apart

/-- Under the substitution each literal is the complement of the one at its place. -/
def Complementary (σ : String → Term) (ls ms : List Literal) : Prop :=
  List.Forall₂ (fun l m => m.inst σ = (l.inst σ).negate) ls ms

/-- A most general substitution that makes literals complementary, all at once. -/
structure IsMguOfAll (σ : String → Term) (ls ms : List Literal) : Prop where
  unifies : Complementary σ ls ms
  general : ∀ τ : String → Term, Complementary τ ls ms →
    ∃ ζ : String → Term, ∀ x, (σ x).inst ζ = τ x

namespace Inference

variable {r r' : Renamer} {σ τ υ : Subst} {l m : Literal} {ls ms : List Literal} {u : Filed}
  {us units : List Filed} {ss : List Satellite} {c : Clause} {θ η : String → Term}

/-! ### Complete choices -/

/-- Satellites `ss` are chosen for the literals `ls`, one after the other from the substitution `σ`
on, with the copies `ms` of their literals and the substitution `υ` in the end. -/
inductive Chooses : Renamer → Subst → List Literal → List Satellite → List Literal → Subst → Prop
  | nil (r : Renamer) (σ : Subst) : Chooses r σ [] [] [] σ
  | cons {r q : Renamer} {σ τ υ : Subst} {l m : Literal} {ls ms : List Literal} {u : Filed}
      {ss : List Satellite} (hq : r.Precedes q) (hm : u.clause.literals = [m])
      (hτ : Subst.unifyOpposite true σ l (m.subst (u.clause.rename q).2.1) = some τ)
      (h : Chooses (u.clause.rename q).2.2 τ ls ss ms υ) :
      Chooses r σ (l :: ls) (⟨u, (u.clause.rename q).2.1⟩ :: ss)
        (m.subst (u.clause.rename q).2.1 :: ms) υ

theorem Chooses.mono (h : Chooses r' σ ls ss ms υ) (hr : r.Precedes r') :
    Chooses r σ ls ss ms υ := by
  cases h with
  | nil => exact .nil r σ
  | cons hq hm hτ h => exact .cons (hr.trans hq) hm hτ h

/-- The variables of a copy are handed out when it is made. -/
theorem vars_copy (hm : u.clause.literals = [m]) (r : Renamer) :
    ∀ x ∈ (m.subst (u.clause.rename r).2.1).vars,
      ¬ r.Avoids x ∧ (u.clause.rename r).2.2.Avoids x :=
  fun _ hx => (u.clause.rename_renamed r).vars_literal
    (fun _ hy => Clause.mem_vars.2 ⟨m, by simp [hm], hy⟩) hx

theorem Chooses.fresh (h : Chooses r σ ls ss ms υ) : ∀ m ∈ ms, ∀ x ∈ m.vars, ¬ r.Avoids x := by
  induction h with
  | nil r σ => simp
  | @cons r q _ _ _ _ _ _ _ u _ hq hm hτ _ ih =>
    refine List.forall_mem_cons.2 ⟨fun x hx ha => ?_, fun n hn x hx ha => ?_⟩
    · exact (vars_copy hm q x hx).1 (ha.mono hq)
    · exact ih n hn x hx (ha.mono (hq.trans (u.clause.rename_precedes q)))

theorem Chooses.apart (h : Chooses r σ ls ss ms υ) : ms.Pairwise Literal.Apart := by
  induction h with
  | nil r σ => exact .nil
  | cons hq hm hτ h ih =>
    refine List.pairwise_cons.2 ⟨fun n hn x hx hxn => ?_, ih⟩
    exact h.fresh n hn x hxn (vars_copy hm _ x hx).2

theorem Chooses.copyOf (h : Chooses r σ ls ss ms υ) (hc : r.Clear c) :
    List.Forall₂ (fun u m => c.CopyOf u.clause m) (ss.map Satellite.unit) ms := by
  induction h with
  | nil r σ => exact .nil
  | @cons r q _ _ _ _ m _ _ u _ hq hm _ _ ih =>
    refine .cons ?_ (ih (hc.mono (hq.trans (u.clause.rename_precedes q))))
    obtain ⟨names, hapart, hnames⟩ :=
      exists_renamesApart_of_renamed (u.clause.rename_renamed q) (hc.mono hq)
    refine ⟨names, m, hapart, hm, ?_⟩
    rw [Literal.subst_eq_inst]
    exact Literal.inst_congr fun x hx => hnames x (Clause.mem_vars.2 ⟨m, by simp [hm], hx⟩)

/-! ### Simultaneous unification -/

/-- The equations between the atoms of literals. -/
def equations (ls ms : List Literal) : List (Term × Term) :=
  List.zipWith (fun l m => (l.atom.term, m.atom.term)) ls ms

theorem complementary_iff (h : List.Forall₂ (fun l m : Literal => l.positive ≠ m.positive) ls ms) :
    Complementary θ ls ms ↔ Subst.SolvedBy θ (equations ls ms) := by
  induction h with
  | nil => simp [Complementary, equations, Subst.SolvedBy]
  | @cons l m ls ms hs _ ih =>
    have hone : m.inst θ = (l.inst θ).negate ↔ l.atom.term.inst θ = m.atom.term.inst θ := by
      rw [Literal.eq_negate_iff, ← Atom.term_inst, ← Atom.term_inst, Atom.term_inj]
      exact and_iff_right hs
    rw [Complementary, List.forall₂_cons, hone]
    simp only [equations, List.zipWith_cons_cons, Subst.SolvedBy, List.forall_mem_cons]
    exact and_congr_right fun _ => ih

theorem Chooses.solves (h : Chooses r σ ls ss ms υ) (hσ : σ.Idempotent) :
    Subst.Solves σ υ (equations ls ms) ∧
      List.Forall₂ (fun l m : Literal => l.positive ≠ m.positive) ls ms := by
  induction h with
  | nil r σ => exact ⟨hσ.solves_self (by simp [equations, Subst.SolvedBy]), .nil⟩
  | cons hq hm hτ h ih =>
    obtain ⟨hs, hu⟩ := Subst.unifyOpposite_eq_some hτ
    have hone := Subst.unifyAtoms_solves hσ hu
    obtain ⟨hrest, hsigns⟩ := ih hone.idempotent
    exact ⟨hone.trans hrest, .cons hs hsigns⟩

theorem Chooses.isMguOfAll (h : Chooses r .empty ls ss ms υ) : IsMguOfAll υ.value ls ms := by
  obtain ⟨hsolves, hsigns⟩ := h.solves Subst.idempotent_empty
  refine ⟨(complementary_iff hsigns).2 hsolves.solved, fun θ hθ => ⟨θ, fun x => ?_⟩⟩
  exact hsolves.general θ ((complementary_iff hsigns).1 hθ) x

/-! ### Choices that can be completed -/

/-- The units have instances that are the complements of the literals. -/
def Compatible (ks : List Literal) (us : List Filed) : Prop :=
  List.Forall₂ (fun k u => ∃ m η, u.clause.literals = [m] ∧ m.inst η = k.negate) ks us

/-- What is kept from one literal to the next: names that may still be handed out occur neither in
the literals that are left nor in the substitution. -/
structure Ready (r : Renamer) (σ : Subst) (ls : List Literal) : Prop where
  idempotent : σ.Idempotent
  tidy : r.Tidy σ
  clear : ∀ l ∈ ls, r.ClearLiteral l

theorem Ready.mono (h : Ready r σ ls) (hr : r.Precedes r') : Ready r' σ ls :=
  ⟨h.idempotent, h.tidy.mono hr, fun l hl => (h.clear l hl).mono hr⟩

theorem Ready.next (h : Ready r σ (l :: ls)) (hm : u.clause.literals = [m])
    (hτ : Subst.unifyOpposite true σ l (m.subst (u.clause.rename r).2.1) = some τ) :
    Ready (u.clause.rename r).2.2 τ ls := by
  obtain ⟨hl, hls⟩ := List.forall_mem_cons.1 h.clear
  have hsolves := Subst.unifyAtoms_solves h.idempotent (Subst.unifyOpposite_eq_some hτ).2
  have hprec := u.clause.rename_precedes r
  exact ⟨hsolves.idempotent, (h.tidy.mono hprec).solves hsolves (hl.mono hprec)
    (u.clause.clear_rename r (by simp [hm])), fun k hk => (hls k hk).mono hprec⟩

/-- An instance that solves an equation already is an instance with the solution as well. -/
theorem inst_subst_of_solves (h : Subst.Solves σ τ [(l.atom.term, m.atom.term)])
    (heq : ((l.subst σ).inst θ).atom = ((m.subst σ).inst θ).atom) (k : Literal) :
    (k.subst τ).inst θ = (k.subst σ).inst θ := by
  have hsolved : Subst.SolvedBy (fun x => (σ.value x).inst θ) [(l.atom.term, m.atom.term)] := by
    rw [Literal.inst_subst, Literal.inst_subst] at heq
    simp only [Literal.inst, ← Atom.term_inj, Atom.term_inst] at heq
    simpa [Subst.SolvedBy] using heq
  rw [Literal.inst_subst, Literal.inst_subst]
  exact Literal.inst_congr fun x _ => h.general θ hsolved x

/-- The next unit of a choice that can be completed unifies, and with the unifier the other literals
have the same instances as before. -/
theorem Ready.exists_unifyOpposite (h : Ready r σ (l :: ls)) (hm : u.clause.literals = [m])
    (heq : m.inst η = ((l.subst σ).inst θ).negate) :
    ∃ τ θ', Subst.unifyOpposite true σ l (m.subst (u.clause.rename r).2.1) = some τ ∧
      ∀ k ∈ ls, (k.subst τ).inst θ' = (k.subst σ).inst θ := by
  have hmu : m ∈ u.clause.literals := by simp [hm]
  -- the copy has new names, so `θ` on what has come so far and `η` on the unit fit together
  obtain ⟨names, hapart, hnames⟩ :=
    exists_renamesApart_of_renamed (u.clause.rename_renamed r) (h.tidy.clear_ofList h.clear)
  obtain ⟨θ', hθ, hη⟩ := hapart.combine θ η
  have hmem : ∀ k ∈ l :: ls,
      k.subst σ ∈ (Clause.ofList ((l :: ls).map (Literal.subst σ))).literals :=
    fun k hk => Clause.mem_ofList.2 (List.mem_map_of_mem hk)
  have hcompl := Clause.RenamesApart.complementary (hmem l (List.mem_cons_self ..)) hmu hθ hη heq
  have hcopy : (m.subst (u.clause.rename r).2.1).subst σ = m.inst fun x => .var (names x) := by
    rw [Literal.subst_eq_inst, Literal.inst_subst]
    refine Literal.inst_congr fun x hx => ?_
    obtain ⟨y, hy, hnew, -⟩ := (u.clause.rename_renamed r).fresh x
      (Clause.mem_vars.2 ⟨m, hmu, hx⟩)
    rw [← hnames x (Clause.mem_vars.2 ⟨m, hmu, hx⟩), hy, Term.inst_var, h.tidy.fixed y hnew]
  rw [← hcopy] at hcompl
  obtain ⟨hsign, hatom⟩ := Literal.eq_negate_iff.1 hcompl
  obtain ⟨τ, hτ⟩ := Subst.unifyAtoms_isSome h.idempotent hatom
  refine ⟨τ, θ', (if_neg hsign).trans hτ, fun k hk => ?_⟩
  rw [inst_subst_of_solves (Subst.unifyAtoms_solves h.idempotent hτ) hatom]
  exact Literal.inst_congr fun x hx => hθ x
    (Clause.mem_vars.2 ⟨_, hmem k (List.mem_cons_of_mem _ hk), hx⟩)

/-! ### The search for choices -/

/-- The choices that are found for the literals `ls`: only complete choices of units that are
allowed, each once, and no choice that can be completed is missing. -/
structure Enumerates (P : List Filed → Prop) (r : Renamer) (σ : Subst) (ls : List Literal)
    (cs : List (List Satellite × Subst)) : Prop where
  chooses : ∀ c ∈ cs, ∃ ms, Chooses r σ ls c.1 ms c.2
  allowed : ∀ c ∈ cs, P (c.1.map Satellite.unit)
  nodup : (cs.map fun c => c.1.map Satellite.unit).Nodup
  complete : ∀ us θ, P us → Compatible (ls.map fun l => (l.subst σ).inst θ) us →
    us ∈ cs.map fun c => c.1.map Satellite.unit

/-- A search, which is given what to do with a complete choice and the satellites chosen before,
goes through all choices of units for the literals that are left. -/
def Explores (P : List Filed → Prop) (r : Renamer) (σ : Subst) (ls : List Literal)
    (search : (List Satellite → Subst → List Derived) → List Satellite → List Derived × Renamer) :
    Prop :=
  ∃ cs r', r.Precedes r' ∧ Enumerates P r σ ls cs ∧ ∀ finish chosen,
    search finish chosen = (cs.flatMap fun c => finish (chosen ++ c.1) c.2, r')

variable {P Q : List Filed → Prop}
  {search : (List Satellite → Subst → List Derived) → List Satellite → List Derived × Renamer}

/-- Choices that cannot be completed need not be looked at. -/
theorem Explores.extend (h : Explores P r' σ ls search) (hr : r.Precedes r')
    (hPQ : ∀ us, P us → Q us)
    (hQP : ∀ us θ, Q us → Compatible (ls.map fun l => (l.subst σ).inst θ) us → P us) :
    Explores Q r σ ls search := by
  obtain ⟨cs, q, hq, hcs, hsearch⟩ := h
  refine ⟨cs, q, hr.trans hq, ⟨fun c hc => ?_, fun c hc => hPQ _ (hcs.allowed c hc), hcs.nodup,
    fun us θ hus hc => hcs.complete us θ (hQP us θ hus hc) hc⟩, hsearch⟩
  obtain ⟨ms, hms⟩ := hcs.chooses c hc
  exact ⟨ms, hms.mono hr⟩

theorem Explores.append {rest : Renamer → (List Satellite → Subst → List Derived) →
      List Satellite → List Derived × Renamer} (h : Explores P r σ ls search)
    (hrest : ∀ q, r.Precedes q → Explores Q q σ ls (rest q)) (hPQ : ∀ us, P us → ¬ Q us) :
    Explores (fun us => P us ∨ Q us) r σ ls fun finish chosen =>
      ((search finish chosen).1 ++ (rest (search finish chosen).2 finish chosen).1,
        (rest (search finish chosen).2 finish chosen).2) := by
  obtain ⟨cs, q, hq, hcs, hsearch⟩ := h
  obtain ⟨ds, q', hq', hds, hsearch'⟩ := hrest q hq
  refine ⟨cs ++ ds, q', hq.trans hq', ⟨fun c hc => ?_, fun c hc => ?_, ?_, fun us θ hus hc => ?_⟩,
    fun finish chosen => ?_⟩
  · rcases List.mem_append.1 hc with hc | hc
    · exact hcs.chooses c hc
    · obtain ⟨ms, hms⟩ := hds.chooses c hc
      exact ⟨ms, hms.mono hq⟩
  · exact (List.mem_append.1 hc).imp (hcs.allowed c) (hds.allowed c)
  · rw [List.map_append]
    refine hcs.nodup.append hds.nodup fun us hus hus' => ?_
    obtain ⟨c, hc, rfl⟩ := List.mem_map.1 hus
    obtain ⟨d, hd, heq⟩ := List.mem_map.1 hus'
    exact hPQ _ (hcs.allowed c hc) (heq ▸ hds.allowed d hd)
  · rw [List.map_append, List.mem_append]
    exact hus.imp (fun hp => hcs.complete us θ hp hc) fun hq => hds.complete us θ hq hc
  · simp only [hsearch, hsearch', List.flatMap_append]

/-- A unit from `us` comes first, and the others are from `units`. -/
def StartsIn (us units vs : List Filed) : Prop :=
  ∃ u ws, vs = u :: ws ∧ u ∈ us ∧ ∀ w ∈ ws, w ∈ units

theorem startsIn_cons {vs : List Filed} :
    StartsIn (u :: us) units vs ↔ StartsIn [u] units vs ∨ StartsIn us units vs := by
  simp only [StartsIn, List.mem_cons, List.not_mem_nil, or_false]
  constructor
  · rintro ⟨v, ws, rfl, rfl | hv, hws⟩
    · exact .inl ⟨v, ws, rfl, rfl, hws⟩
    · exact .inr ⟨v, ws, rfl, hv, hws⟩
  · rintro (⟨v, ws, rfl, hv, hws⟩ | ⟨v, ws, rfl, hv, hws⟩)
    · exact ⟨v, ws, rfl, .inl hv, hws⟩
    · exact ⟨v, ws, rfl, .inr hv, hws⟩

/-- What unification with a unit `u` leads to are the choices with `u` in the first place. -/
theorem Explores.consUnit (h : Ready r σ (l :: ls)) (hm : u.clause.literals = [m])
    (hτ : Subst.unifyOpposite true σ l (m.subst (u.clause.rename r).2.1) = some τ)
    (hnext : Explores (∀ v ∈ ·, v ∈ units) (u.clause.rename r).2.2 τ ls search) :
    Explores (StartsIn [u] units) r σ (l :: ls) fun finish chosen =>
      search finish (chosen ++ [⟨u, (u.clause.rename r).2.1⟩]) := by
  obtain ⟨cs, q, hq, hcs, hsearch⟩ := hnext
  refine ⟨cs.map fun c => (⟨u, (u.clause.rename r).2.1⟩ :: c.1, c.2), q,
    (u.clause.rename_precedes r).trans hq, ⟨?_, ?_, ?_, ?_⟩, fun finish chosen => ?_⟩
  · intro _ hmem
    obtain ⟨c, hc, rfl⟩ := List.mem_map.1 hmem
    obtain ⟨ms, hms⟩ := hcs.chooses c hc
    exact ⟨_, .cons (.refl r) hm hτ hms⟩
  · intro _ hmem
    obtain ⟨c, hc, rfl⟩ := List.mem_map.1 hmem
    exact ⟨u, _, rfl, List.mem_singleton_self u, hcs.allowed c hc⟩
  · have hunits := hcs.nodup.map (List.cons_injective (a := u))
    simpa [List.map_map, Function.comp_def] using hunits
  · rintro _ θ ⟨v, ws, rfl, hv, hws⟩ hc
    obtain rfl := List.mem_singleton.1 hv
    obtain ⟨⟨m', η, hm', heq⟩, hc⟩ := List.forall₂_cons.1 hc
    obtain rfl : m' = m := by simpa [hm] using hm'.symm
    obtain ⟨τ', θ', hτ', hkept⟩ := h.exists_unifyOpposite hm heq
    obtain rfl : τ' = τ := Option.some.inj (hτ'.symm.trans hτ)
    have hmem := hcs.complete ws θ' hws (by rwa [List.map_congr_left hkept])
    simpa [List.map_map, Function.comp_def] using hmem
  · simp [hsearch, List.flatMap_map]

/-- A unit without an instance that is the complement of the first literal cannot be chosen. -/
theorem Explores.skipUnit (h : Explores (StartsIn us units) r' σ (l :: ls) search)
    (hr : r.Precedes r')
    (hu : ∀ m η θ, u.clause.literals = [m] → m.inst η ≠ ((l.subst σ).inst θ).negate) :
    Explores (StartsIn (u :: us) units) r σ (l :: ls) search := by
  refine h.extend hr (fun vs hvs => startsIn_cons.2 (.inr hvs)) fun vs θ hvs hc => ?_
  refine (startsIn_cons.1 hvs).resolve_left ?_
  rintro ⟨v, ws, rfl, hv, -⟩
  obtain rfl := List.mem_singleton.1 hv
  obtain ⟨⟨m, η, hm, heq⟩, -⟩ := List.forall₂_cons.1 hc
  exact hu m η θ hm heq

/-- After the choices that begin with one unit come those that begin with another. -/
theorem Explores.appendUnits {rest : Renamer → (List Satellite → Subst → List Derived) →
      List Satellite → List Derived × Renamer} (h : Explores (StartsIn [u] units) r σ ls search)
    (hrest : ∀ q, r.Precedes q → Explores (StartsIn us units) q σ ls (rest q)) (hu : u ∉ us) :
    Explores (StartsIn (u :: us) units) r σ ls fun finish chosen =>
      ((search finish chosen).1 ++ (rest (search finish chosen).2 finish chosen).1,
        (rest (search finish chosen).2 finish chosen).2) := by
  refine (h.append hrest ?_).extend (.refl r) (fun _ => startsIn_cons.2)
    fun _ _ hvs _ => startsIn_cons.1 hvs
  rintro _ ⟨v, ws, rfl, hv, -⟩ ⟨w, ws', heq, hw, -⟩
  obtain rfl := List.mem_singleton.1 hv
  exact hu ((List.cons.inj heq).1 ▸ hw)

section

variable {next : Subst → Satellite → Renamer → List Derived × Renamer}

theorem tryUnits_of_some (hm : u.clause.literals = [m]) (hkey : m.key = l.oppositeKey)
    (hτ : Subst.unifyOpposite true σ l (m.subst (u.clause.rename r).2.1) = some τ) :
    tryUnits .never true l σ next (u :: us) r =
      ((next τ ⟨u, (u.clause.rename r).2.1⟩ (u.clause.rename r).2.2).1 ++
        (tryUnits .never true l σ next us
          (next τ ⟨u, (u.clause.rename r).2.1⟩ (u.clause.rename r).2.2).2).1,
        (tryUnits .never true l σ next us
          (next τ ⟨u, (u.clause.rename r).2.1⟩ (u.clause.rename r).2.2).2).2) := by
  rw [tryUnits]
  simp [hm, hkey, hτ, Halt.never]

theorem tryUnits_of_none (hm : u.clause.literals = [m]) (hkey : m.key = l.oppositeKey)
    (hτ : Subst.unifyOpposite true σ l (m.subst (u.clause.rename r).2.1) = none) :
    tryUnits .never true l σ next (u :: us) r =
      tryUnits .never true l σ next us (u.clause.rename r).2.2 := by
  rw [tryUnits]
  simp [hm, hkey, hτ]

theorem tryUnits_of_ne (hu : ∀ m, u.clause.literals = [m] → m.key ≠ l.oppositeKey) :
    tryUnits .never true l σ next (u :: us) r = tryUnits .never true l σ next us r := by
  rw [tryUnits]
  split
  · next m hm => rw [if_neg (hu m hm)]
  · rfl

end

/-- All units in `us` are tried for the first literal. -/
theorem tryUnits_explores (hus : us.Nodup) (h : Ready r σ (l :: ls))
    (hnext : ∀ q τ, Ready q τ ls → Explores (∀ v ∈ ·, v ∈ units) q τ ls
      fun finish chosen => combineFrom .never true units finish ls τ chosen q) :
    Explores (StartsIn us units) r σ (l :: ls) fun finish chosen =>
      tryUnits .never true l σ
        (fun τ s r => combineFrom .never true units finish ls τ (chosen ++ [s]) r) us r := by
  induction us generalizing r with
  | nil =>
    refine ⟨[], r, .refl r, ⟨by simp, by simp, by simp, ?_⟩, fun finish chosen => rfl⟩
    rintro _ θ ⟨u, ws, -, hu, -⟩
    cases hu
  | cons u us ih =>
    obtain ⟨hu, hus⟩ := List.nodup_cons.1 hus
    have hrest := fun q (hq : r.Precedes q) => ih hus (h.mono hq)
    have hprec := u.clause.rename_precedes r
    by_cases hkey : ∃ m, u.clause.literals = [m] ∧ m.key = l.oppositeKey
    · obtain ⟨m, hm, hkey⟩ := hkey
      cases hτ : Subst.unifyOpposite true σ l (m.subst (u.clause.rename r).2.1) with
      | some τ =>
        simp only [tryUnits_of_some hm hkey hτ]
        exact (Explores.consUnit h hm hτ (hnext _ τ (h.next hm hτ))).appendUnits hrest hu
      | none =>
        simp only [tryUnits_of_none hm hkey hτ]
        -- a choice that begins with this unit can be completed only if the two unify
        refine (hrest _ hprec).skipUnit hprec fun m' η θ hm' heq => ?_
        obtain rfl : m' = m := by simpa [hm] using hm'.symm
        obtain ⟨τ, -, hτ', -⟩ := h.exists_unifyOpposite hm heq
        rw [hτ] at hτ'
        cases hτ'
    · have hne : ∀ m, u.clause.literals = [m] → m.key ≠ l.oppositeKey :=
        fun m hm heq => hkey ⟨m, hm, heq⟩
      simp only [tryUnits_of_ne hne]
      refine (hrest r (.refl r)).skipUnit (.refl r) fun m η θ hm heq => ?_
      rw [Literal.inst_subst, ← Literal.inst_negate] at heq
      exact hne m hm (key_eq_of_inst_eq heq)

theorem combineFrom_explores (hunits : units.Nodup) (h : Ready r σ ls) :
    Explores (∀ u ∈ ·, u ∈ units) r σ ls
      fun finish chosen => combineFrom .never true units finish ls σ chosen r := by
  induction ls generalizing r σ with
  | nil =>
    refine ⟨[([], σ)], r, .refl r, ⟨by simpa using ⟨[], .nil r σ⟩, by simp, by simp, ?_⟩, ?_⟩
    · intro us θ _ hc
      cases hc
      simp
    · simp [combineFrom]
  | cons l ls ih =>
    refine (tryUnits_explores hunits h fun q τ => ih).extend (.refl r) ?_ fun vs θ hvs hc => ?_
    · rintro _ ⟨u, us, rfl, hu, hus⟩
      exact List.forall_mem_cons.2 ⟨hu, hus⟩
    · -- no unit at all would not do, since there is a literal
      cases hc with
      | cons _ _ => exact ⟨_, _, rfl, List.forall_mem_cons.1 hvs⟩

end Inference

end Elenchus

import Elenchus.Proofs.Inferences

/-!
What each rule gives. The clauses at hand have no variable that may still be handed out, and the
same is true of the clauses that come out, with the renamer that comes out with them.
-/

namespace Elenchus

theorem Clause.rename_renamed (c : Clause) (r : Renamer) :
    Renamer.Renamed r (c.rename r).2.2 c.vars (c.rename r).2.1 :=
  Renamer.renamingFor_renamed r c.nodup_vars

theorem Clause.clear_rename (c : Clause) (r : Renamer) {l : Literal} (hl : l ∈ c.literals) :
    (c.rename r).2.2.ClearLiteral (l.subst (c.rename r).2.1) :=
  fun _ hy => ((c.rename_renamed r).vars_literal
    (fun _ hx => Clause.mem_vars.2 ⟨l, hl, hx⟩) hy).2

namespace Inference

/-- A clause that can be inferred from known clauses, and has no variable that `r` may hand out. -/
def Yields (known : Filed → Prop) (r : Renamer) (d : Derived) : Prop :=
  (∃ ps, (∀ p ∈ ps, known p) ∧ Inferred ps d) ∧ r.Clear d.clause

variable {known : Filed → Prop} {r r' : Renamer} {d : Derived} {c given partner : Filed}
  {halt : Halt} {l m : Literal} {σ τ ρ : Subst}

theorem Yields.mono (h : Yields known r d) (hr : r.Precedes r') : Yields known r' d :=
  ⟨h.1, h.2.mono hr⟩

/-- Everything in a list of new clauses is inferred, and names are only ever used up. -/
structure Sound (known : Filed → Prop) (r : Renamer) (out : List Derived × Renamer) : Prop where
  precedes : r.Precedes out.2
  yields : ∀ d ∈ out.1, Yields known out.2 d

theorem sound_nil (known : Filed → Prop) (r : Renamer) : Sound known r ([], r) :=
  ⟨.refl r, by simp⟩

theorem Sound.append {ds es : List Derived} {r₂ : Renamer} (h : Sound known r (ds, r'))
    (h' : Sound known r' (es, r₂)) : Sound known r (ds ++ es, r₂) := by
  refine ⟨h.precedes.trans h'.precedes, fun d hd => ?_⟩
  rcases List.mem_append.1 hd with hd | hd
  · exact (h.yields d hd).mono h'.precedes
  · exact h'.yields d hd

theorem Sound.of_precedes {out : List Derived × Renamer} (h : Sound known r' out)
    (hr : r.Precedes r') : Sound known r out :=
  ⟨hr.trans h.precedes, h.yields⟩

/-- Literals with the same atom and opposite signs are complements. -/
theorem subst_eq_negate (hs : l.positive ≠ m.positive) (ha : l.atom.subst σ = m.atom.subst σ) :
    m.subst σ = (l.subst σ).negate :=
  Literal.eq_negate_iff.2 ⟨hs, ha⟩

/-! ### Factoring -/

theorem mem_factors : d ∈ factors true c ↔
    ∃ i j l m, c.clause.literals[i]? = some l ∧ c.clause.literals[j]? = some m ∧ i < j ∧
      l.key = m.key ∧ factorAt true c i j l m = some d := by
  simp only [factors, List.mem_flatMap, List.mem_filterMap, Prod.exists,
    List.mk_mem_zipIdx_iff_getElem?]
  constructor
  · rintro ⟨l, i, hl, m, j, hm, h⟩
    split at h
    · next hij => exact ⟨i, j, l, m, hl, hm, hij.1, hij.2, h⟩
    · simp at h
  · rintro ⟨i, j, l, m, hl, hm, hij, hk, h⟩
    exact ⟨l, i, hl, m, j, hm, by rw [if_pos ⟨hij, hk⟩, h]⟩

theorem factors_inferred (hd : d ∈ factors true c) : Inferred [c] d := by
  obtain ⟨i, j, l, m, hl, hm, hij, -, h⟩ := mem_factors.1 hd
  obtain ⟨σ, hσ, rfl⟩ := Option.map_eq_some_iff.1 h
  obtain ⟨hs, hu⟩ := Subst.unifyAlike_eq_some hσ
  have hsolves := Subst.unifyAtoms_solves Subst.idempotent_empty hu
  have hml : m.subst σ = l.subst σ := by
    rw [Literal.subst, Literal.subst, hsolves.atom_eq, hs]
  exact .factor (Nat.ne_of_lt hij) hl hm hml

theorem factors_yields (hc : known c) (hclear : r.Clear c.clause) (hd : d ∈ factors true c) :
    Yields known r d := by
  refine ⟨⟨[c], by simpa using hc, factors_inferred hd⟩, ?_⟩
  obtain ⟨i, j, l, m, hl, hm, -, -, h⟩ := mem_factors.1 hd
  obtain ⟨σ, hσ, rfl⟩ := Option.map_eq_some_iff.1 h
  obtain ⟨-, hu⟩ := Subst.unifyAlike_eq_some hσ
  have hsolves := Subst.unifyAtoms_solves Subst.idempotent_empty hu
  have htidy := (Renamer.tidy_empty r).solves hsolves (hclear l (List.mem_of_getElem? hl))
    (hclear m (List.mem_of_getElem? hm))
  exact htidy.clear_ofList fun l hl => hclear l (mem_of_mem_dropAt hl)

/-! ### Resolution -/

/-- The resolvent under a renaming of the partner and a unifier. -/
def resolventOf (given partner : Filed) (i j : Nat) (ρ σ : Subst) : Derived :=
  { clause := .ofList ((dropAt [(i : Int)] given.clause.literals ++
      dropAt [(j : Int)] (partner.clause.literals.map (Literal.subst ρ))).map (Literal.subst σ))
    derivation := some
      { rule := .str resolutionRule
        parents := [.int given.id, .int partner.id]
        unifier := some (.ofSubst σ)
        partnerRenaming := some (.ofSubst ρ)
        indices := [.int i, .int j]
        depth := given.derived.nextDepth [partner.derived] } }

theorem resolve_snd (check : Bool) (given partner : Filed) (i j : Nat) (r : Renamer) :
    (resolve check given partner i j r).2 = (partner.clause.rename r).2.2 := by
  rw [resolve]
  generalize partner.clause.rename r = p
  obtain ⟨renamed, ρ, r'⟩ := p
  dsimp only
  split
  · split <;> rfl
  · rfl

theorem resolve_fst_eq_some {i j : Nat} :
    (resolve true given partner i j r).1 = some (some d) ↔
      ∃ l m σ, given.clause.literals[i]? = some l ∧ partner.clause.literals[j]? = some m ∧
        Subst.unifyOpposite true .empty l (m.subst (partner.clause.rename r).2.1) = some σ ∧
        d = resolventOf given partner i j (partner.clause.rename r).2.1 σ := by
  have hren : (partner.clause.rename r).1 =
      partner.clause.literals.map (Literal.subst (partner.clause.rename r).2.1) := rfl
  simp only [resolve, at?_ofNat, hren, List.getElem?_map]
  cases hl : given.clause.literals[i]? with
  | none => simp
  | some l =>
    cases hm : partner.clause.literals[j]? with
    | none => simp
    | some m =>
      simp only [Option.map_some]
      cases hσ : Subst.unifyOpposite true .empty l (m.subst (partner.clause.rename r).2.1) with
      | none => simp [hσ]
      | some σ => simp [hσ, resolventOf, eq_comm]

theorem resolve_inferred {i j : Nat}
    (h : (resolve true given partner i j r).1 = some (some d)) : Inferred [given, partner] d := by
  obtain ⟨l, m, σ, hl, hm, hσ, rfl⟩ := resolve_fst_eq_some.1 h
  obtain ⟨hs, hu⟩ := Subst.unifyOpposite_eq_some hσ
  have hsolves := Subst.unifyAtoms_solves Subst.idempotent_empty hu
  exact .resolvent hl hm (subst_eq_negate hs hsolves.atom_eq)

theorem resolve_yields (hk : ∀ p, known p → r.Clear p.clause) (hg : known given)
    (hp : known partner) {i j : Nat}
    (h : (resolve true given partner i j r).1 = some (some d)) :
    Yields known (partner.clause.rename r).2.2 d := by
  refine ⟨⟨[given, partner], by simp [hg, hp], resolve_inferred h⟩, ?_⟩
  obtain ⟨l, m, σ, hl, hm, hσ, rfl⟩ := resolve_fst_eq_some.1 h
  obtain ⟨-, hu⟩ := Subst.unifyOpposite_eq_some hσ
  have hsolves := Subst.unifyAtoms_solves Subst.idempotent_empty hu
  have hren := partner.clause.rename_renamed r
  have hgiven : ∀ l ∈ given.clause.literals, (partner.clause.rename r).2.2.ClearLiteral l :=
    fun l hl => (hk given hg l hl).mono hren.precedes
  have htidy := (Renamer.tidy_empty _).solves hsolves (hgiven l (List.mem_of_getElem? hl))
    (partner.clause.clear_rename r (List.mem_of_getElem? hm))
  refine htidy.clear_ofList fun k hmem => ?_
  rcases List.mem_append.1 hmem with hmem | hmem
  · exact hgiven k (mem_of_mem_dropAt hmem)
  · obtain ⟨k', hk', rfl⟩ := List.mem_map.1 (mem_of_mem_dropAt hmem)
    exact partner.clause.clear_rename r hk'

theorem resolveEach_sound (hk : ∀ p, known p → r.Clear p.clause) (hg : known given)
    {ms : List (Nat × Filed × Nat)} (hms : ∀ x ∈ ms, known x.2.1) :
    Sound known r (resolveEach halt true given ms r) := by
  induction ms generalizing r with
  | nil => exact sound_nil known r
  | cons x ms ih =>
    obtain ⟨i, partner, j⟩ := x
    have hp : known partner := hms _ (List.mem_cons_self ..)
    have hsnd := resolve_snd true given partner i j r
    have hren := partner.clause.rename_renamed r
    have htail := ih (r := (partner.clause.rename r).2.2)
      (fun p hp => (hk p hp).mono hren.precedes) fun x hx => hms x (List.mem_cons_of_mem _ hx)
    rw [resolveEach]
    split
    · next d r₁ heq =>
      have hd : (resolve true given partner i j r).1 = some (some d) := by rw [heq]
      have hr₁ : r₁ = (partner.clause.rename r).2.2 := by rw [← hsnd, heq]
      have hy := resolve_yields hk hg hp hd
      have hone : Sound known r ([d], r₁) := by
        subst hr₁
        exact ⟨hren.precedes, by simpa using hy⟩
      split
      · exact hone
      · exact hone.append (hr₁ ▸ htail)
    · next o r₁ _ heq =>
      have hr₁ : r₁ = (partner.clause.rename r).2.2 := by rw [← hsnd, heq]
      exact (hr₁ ▸ htail).of_precedes (hr₁ ▸ hren.precedes)

/-! ### Hyperresolution -/

/-- Units have been chosen for the literals `done`, and `σ` makes each the complement of its
literal. -/
structure Chosen (known : Filed → Prop) (r : Renamer) (done : List Literal)
    (chosen : List Satellite) (σ : Subst) : Prop where
  idempotent : σ.Idempotent
  tidy : r.Tidy σ
  known : ∀ s ∈ chosen, known s.unit
  refuted : List.Forall₂ (fun l s => ∃ m, s.unit.clause.literals = [m] ∧
    (m.subst s.renamed).subst σ = (l.subst σ).negate) done chosen

theorem chosen_nil (known : Filed → Prop) (r : Renamer) : Chosen known r [] [] .empty :=
  ⟨Subst.idempotent_empty, Renamer.tidy_empty r, by simp, .nil⟩

theorem Chosen.mono {done : List Literal} {chosen : List Satellite}
    (h : Chosen known r done chosen σ) (hr : r.Precedes r') : Chosen known r' done chosen σ :=
  ⟨h.idempotent, h.tidy.mono hr, h.known, h.refuted⟩

/-- Solving further equations keeps complements complements. -/
theorem Chosen.snoc {done : List Literal} {chosen : List Satellite} {u : Filed}
    (h : Chosen known r done chosen σ) (hl : r.ClearLiteral l) (hu : known u)
    (hm : u.clause.literals = [m])
    (hτ : Subst.unifyOpposite true σ l (m.subst (u.clause.rename r).2.1) = some τ) :
    Chosen known (u.clause.rename r).2.2 (done ++ [l])
      (chosen ++ [⟨u, (u.clause.rename r).2.1⟩]) τ := by
  obtain ⟨hs, hun⟩ := Subst.unifyOpposite_eq_some hτ
  have hsolves := Subst.unifyAtoms_solves h.idempotent hun
  have hprec := (u.clause.rename_renamed r).precedes
  have later := hsolves.literal_subst
  refine ⟨hsolves.idempotent, ?_, ?_, ?_⟩
  · exact (h.tidy.mono hprec).solves hsolves (hl.mono hprec)
      (u.clause.clear_rename r (by simp [hm]))
  · intro s hs
    rcases List.mem_append.1 hs with hs | hs
    · exact h.known s hs
    · exact (List.mem_singleton.1 hs) ▸ hu
  · refine List.rel_append (h.refuted.imp fun l s => ?_)
      (.cons ⟨m, hm, subst_eq_negate hs hsolves.atom_eq⟩ .nil)
    rintro ⟨k, hk, he⟩
    refine ⟨k, hk, ?_⟩
    rw [← later, he, ← later l]
    rfl

theorem tryUnits_sound {next : Subst → Satellite → Renamer → List Derived × Renamer}
    {us : List Filed} {done : List Literal} {chosen : List Satellite}
    (h : Chosen known r done chosen σ) (hl : r.ClearLiteral l) (hus : ∀ u ∈ us, known u)
    (hnext : ∀ τ s r', r.Precedes r' → Chosen known r' (done ++ [l]) (chosen ++ [s]) τ →
      Sound known r' (next τ s r')) :
    Sound known r (tryUnits halt true l σ next us r) := by
  induction us generalizing r with
  | nil => exact sound_nil known r
  | cons u us ih =>
    have hrest : ∀ r', r.Precedes r' → Sound known r' (tryUnits halt true l σ next us r') :=
      fun r' hr' => ih (h.mono hr') (hl.mono hr')
        (fun v hv => hus v (List.mem_cons_of_mem _ hv))
        fun τ s r'' hr'' => hnext τ s r'' (hr'.trans hr'')
    rw [tryUnits]
    split
    · next m hm =>
      split
      · have hprec := (u.clause.rename_renamed r).precedes
        dsimp only
        split
        · next τ hτ =>
          have hone := hnext τ _ _ hprec (h.snoc hl (hus u (List.mem_cons_self ..)) hm hτ)
          split
          · exact hone.of_precedes hprec
          · exact (hone.append (hrest _ (hprec.trans hone.precedes))).of_precedes hprec
        · exact (hrest _ hprec).of_precedes hprec
      · exact hrest r (.refl r)
    · exact hrest r (.refl r)

theorem combineFrom_sound {finish : List Satellite → Subst → List Derived} {units : List Filed}
    {done ls : List Literal} {chosen : List Satellite}
    (hunits : ∀ u ∈ units, known u) (h : Chosen known r done chosen σ)
    (hls : ∀ l ∈ ls, r.ClearLiteral l)
    (hfinish : ∀ chosen σ r', r.Precedes r' → Chosen known r' (done ++ ls) chosen σ →
      ∀ d ∈ finish chosen σ, Yields known r' d) :
    Sound known r (combineFrom halt true units finish ls σ chosen r) := by
  induction ls generalizing σ chosen done r with
  | nil =>
    rw [List.append_nil] at hfinish
    exact ⟨.refl r, hfinish chosen σ r (.refl r) h⟩
  | cons l ls ih =>
    refine tryUnits_sound h (hls l (List.mem_cons_self ..)) hunits fun τ s r' hr' hc => ?_
    refine ih hc (fun k hk => (hls k (List.mem_cons_of_mem _ hk)).mono hr')
      fun chosen σ r'' hr'' hc' => ?_
    rw [List.append_assoc] at hc'
    exact hfinish chosen σ r'' (hr'.trans hr'') hc'

/-- The literals that are not negative are those at other positions than the negative ones. -/
theorem filter_positive (ls : List Literal) :
    ls.filter Literal.positive =
      dropAt (((ls.zipIdx.filter fun p => !p.1.positive).map Prod.snd).map
        fun (i : Nat) => (i : Int)) ls := by
  simpa using (dropAt_positions (fun l : Literal => !l.positive) ls).symm

/-- Each negative literal goes because of the unit that is chosen for it. -/
def removals (ns : List (Literal × Nat)) (chosen : List Satellite) : List Removal :=
  (ns.zip chosen).map fun p => ⟨p.1.2, p.2.unit, p.2.renamed⟩

section
variable {β : Type} {ns : List (Literal × Nat)} {chosen : List Satellite}

theorem map_position_removals (hlen : ns.length = chosen.length) (g : Nat → β) :
    (removals ns chosen).map (fun x => g x.position) = (ns.map Prod.snd).map g := by
  have hfst : (ns.zip chosen).map Prod.fst = ns := List.map_fst_zip (Nat.le_of_eq hlen)
  conv_rhs => rw [← hfst]
  simp [removals, Function.comp_def]

theorem map_unit_removals (hlen : ns.length = chosen.length) (g : Filed → Subst → β) :
    (removals ns chosen).map (fun x => g x.unit x.renamed) =
      chosen.map fun s => g s.unit s.renamed := by
  have hsnd : (ns.zip chosen).map Prod.snd = chosen := List.map_snd_zip (Nat.le_of_eq hlen.symm)
  conv_rhs => rw [← hsnd]
  simp [removals, Function.comp_def]

theorem Chosen.refutes {cl : Clause} (h : Chosen known r (ns.map Prod.fst) chosen σ)
    (hns : ∀ p ∈ ns, cl.literals[p.2]? = some p.1) :
    ∀ x ∈ removals ns chosen, x.Refutes σ cl := by
  intro x hx
  obtain ⟨⟨⟨l, i⟩, s⟩, hp, rfl⟩ := List.mem_map.1 hx
  obtain ⟨m, hm, he⟩ := List.forall₂_iff_zip.1 (List.forall₂_map_left_iff.1 h.refuted) |>.2 hp
  exact ⟨l, m, hns (l, i) (List.of_mem_zip hp).1, hm, he⟩

end

theorem hyperresolvent_yields {nucleus : Filed} {chosen : List Satellite} (hn : known nucleus)
    (hclear : r.Clear nucleus.clause) (hneg : nucleus.clause.literals.all Literal.positive = false)
    (h : Chosen known r
      ((nucleus.clause.literals.zipIdx.filter fun p => !p.1.positive).map Prod.fst) chosen σ) :
    Yields known r (hyperresolvent nucleus
      ((nucleus.clause.literals.zipIdx.filter fun p => !p.1.positive).map Prod.snd) chosen σ) := by
  have hneg' : nucleus.clause.literals.zipIdx.filter (fun p => !p.1.positive) ≠ [] := by
    intro he
    simp only [List.all_eq_false] at hneg
    obtain ⟨l, hl, hp⟩ := hneg
    obtain ⟨k, hk⟩ := List.mem_iff_getElem?.1 hl
    have := List.filter_eq_nil_iff.1 he (l, k) (List.mk_mem_zipIdx_iff_getElem?.2 hk)
    simp [hp] at this
  have hpos := filter_positive nucleus.clause.literals
  have hmem : ∀ p ∈ nucleus.clause.literals.zipIdx.filter fun p => !p.1.positive,
      nucleus.clause.literals[p.2]? = some p.1 := fun p hp =>
    List.mk_mem_zipIdx_iff_getElem?.1 (List.mem_filter.1 hp).1
  generalize nucleus.clause.literals.zipIdx.filter (fun p => !p.1.positive) = ns at *
  have hlen : ns.length = chosen.length := by simpa using h.refuted.length_eq
  have hne : removals ns chosen ≠ [] := by
    simpa [removals, ← List.length_eq_zero_iff, ← hlen] using hneg'
  have hunits := map_unit_removals hlen fun u _ => u
  refine ⟨⟨nucleus :: (removals ns chosen).map Removal.unit, ?_, ?_⟩, ?_⟩
  · intro p hp
    rcases List.mem_cons.1 hp with rfl | hp
    · exact hn
    · obtain ⟨s, hs, rfl⟩ := List.mem_map.1 (hunits ▸ hp)
      exact h.known s hs
  · rw [hyperresolvent, hpos, ← map_position_removals hlen fun (i : Nat) => (i : Int),
      ← map_position_removals hlen fun (i : Nat) => Item.int i,
      ← map_unit_removals hlen fun u _ => Item.int u.id,
      ← map_unit_removals hlen fun _ ρ => Bindings.ofSubst ρ]
    exact .unitResolvent (Or.inl rfl) hne (h.refutes hmem)
  · exact h.tidy.clear_ofList fun l hl => hclear l (List.mem_filter.1 hl).1

theorem combine_sound {nucleus : Filed} {units : List Filed} {required : Option Nat}
    (hk : ∀ p, known p → r.Clear p.clause) (hn : known nucleus)
    (hunits : ∀ u ∈ units, known u)
    (hneg : nucleus.clause.literals.all Literal.positive = false) :
    Sound known r (combine halt true nucleus units required r) := by
  refine combineFrom_sound hunits (chosen_nil known r) (fun l hl => ?_)
    fun chosen σ r' hr' hc d hd => ?_
  · obtain ⟨⟨l, i⟩, hp, rfl⟩ := List.mem_map.1 hl
    have := List.mk_mem_zipIdx_iff_getElem?.1 (List.mem_filter.1 hp).1
    exact hk nucleus hn l (List.mem_of_getElem? this)
  · split at hd
    · rw [List.mem_singleton.1 hd]
      exact hyperresolvent_yields hn ((hk nucleus hn).mono hr') hneg hc
    · simp at hd

theorem combineEach_sound {units nuclei : List Filed}
    (hk : ∀ p, known p → r.Clear p.clause) (hunits : ∀ u ∈ units, known u)
    (hn : ∀ n ∈ nuclei, known n) :
    Sound known r (combineEach halt true given units nuclei r) := by
  induction nuclei generalizing r with
  | nil => exact sound_nil known r
  | cons n ns ih =>
    have hkn : known n := hn n (List.mem_cons_self ..)
    have hone : Sound known r
        (if n.clause.literals.all Literal.positive then ([], r)
          else if n.id = given.id then combine halt true n units none r
          else if isPositiveUnit given.clause then combine halt true n units (some given.id) r
          else ([], r)) := by
      split
      · exact sound_nil known r
      · next hneg =>
        have hneg := Bool.eq_false_iff.2 hneg
        split
        · exact combine_sound hk hkn hunits hneg
        · split
          · exact combine_sound hk hkn hunits hneg
          · exact sound_nil known r
    rw [combineEach]
    generalize (if n.clause.literals.all Literal.positive = true then (([] : List Derived), r)
      else if n.id = given.id then combine halt true n units none r
      else if isPositiveUnit given.clause = true then
        combine halt true n units (some given.id) r
      else ([], r)) = out at hone ⊢
    obtain ⟨ds, r₁⟩ := out
    dsimp only
    split
    · exact hone
    · exact hone.append (ih (fun p hp => (hk p hp).mono hone.precedes)
        fun m hm => hn m (List.mem_cons_of_mem _ hm))

/-! ### Unit deletion -/

/-- A unit refutes the literal at the position, by a matcher that binds only names handed out on the
way from `r` to `r'`. -/
structure Deletes (known : Filed → Prop) (c : Clause) (r r' : Renamer) (x : Deletion) : Prop where
  known : known x.unit
  fresh : ∀ b ∈ x.matcher.bindings, ¬ r.Avoids b.1 ∧ r'.Avoids b.1
  refutes : ∃ l m, c.literals[x.position]? = some l ∧ x.unit.clause.literals = [m] ∧
    Subst.matchLiteral .empty (m.subst x.renamed) l.negate = some x.matcher

theorem Deletes.mono {cl : Clause} {x : Deletion} {r₀ r₂ : Renamer} (h : Deletes known cl r r' x)
    (hr : r₀.Precedes r) (hr' : r'.Precedes r₂) : Deletes known cl r₀ r₂ x :=
  ⟨h.known, fun b hb => ⟨fun ha => (h.fresh b hb).1 (ha.mono hr), (h.fresh b hb).2.mono hr'⟩,
    h.refutes⟩

theorem refutingUnit_deletes {cl : Clause} {i : Nat} {us : List Filed}
    (hl : cl.literals[i]? = some l) (hus : ∀ u ∈ us, known u) :
    r.Precedes (refutingUnit l i us r).2 ∧
      ∀ x, (refutingUnit l i us r).1 = some x → Deletes known cl r (refutingUnit l i us r).2 x := by
  induction us generalizing r with
  | nil => exact ⟨.refl r, by simp [refutingUnit]⟩
  | cons u us ih =>
    have hus' : ∀ u ∈ us, known u := fun v hv => hus v (List.mem_cons_of_mem _ hv)
    rw [refutingUnit]
    split
    · next m hm =>
      have hren := u.clause.rename_renamed r
      dsimp only
      split
      · next σ hσ =>
        refine ⟨hren.precedes, fun x hx => ?_⟩
        obtain rfl := Option.some.inj hx
        refine ⟨hus u (List.mem_cons_self ..), fun b hb => ?_, l, m, hl, hm, hσ⟩
        obtain ⟨-, hmatch⟩ := Subst.matchLiteral_matches hσ
        rcases hmatch.new b.1 b.2 (Subst.get?_eq_some_iff.2 hb) with hnone | ⟨hvar, -⟩
        · simp at hnone
        · refine hren.vars_literal (fun x hx => ?_) hvar
          exact Clause.mem_vars.2 ⟨m, by simp [hm], hx⟩
      · obtain ⟨hp, hx⟩ := ih (r := (u.clause.rename r).2.2) hus'
        exact ⟨hren.precedes.trans hp, fun x h => (hx x h).mono hren.precedes (.refl _)⟩
    · exact ih hus'

theorem deletionsFrom_deletes {cl : Clause} {s : Store} {ps : List (Literal × Nat)}
    (hs : ∀ id f, s.arena.filed? id = some f → known f)
    (hps : ∀ p ∈ ps, cl.literals[p.2]? = some p.1) :
    r.Precedes (deletionsFrom s ps r).2 ∧
      (∀ x ∈ (deletionsFrom s ps r).1, Deletes known cl r (deletionsFrom s ps r).2 x) ∧
      (((deletionsFrom s ps r).1.flatMap fun x => x.matcher.bindings).map Prod.fst).Nodup := by
  induction ps generalizing r with
  | nil => exact ⟨.refl r, by simp [deletionsFrom], by simp [deletionsFrom]⟩
  | cons p ps ih =>
    obtain ⟨l, i⟩ := p
    rw [deletionsFrom]
    have hunits : ∀ u ∈ (s.candidates l).filterMap fun c => s.arena.filed? c.id, known u := by
      intro u hu
      obtain ⟨c, -, hc⟩ := List.mem_filterMap.1 hu
      exact hs _ u hc
    obtain ⟨hp₁, hx₁⟩ := refutingUnit_deletes (r := r) (hps _ (List.mem_cons_self ..)) hunits
    obtain ⟨hp₂, hx₂, hn⟩ := ih (r := (refutingUnit l i
      ((s.candidates l).filterMap fun c => s.arena.filed? c.id) r).2)
      fun p hp => hps p (List.mem_cons_of_mem _ hp)
    refine ⟨hp₁.trans hp₂, fun x hx => ?_, ?_⟩
    · rcases List.mem_append.1 hx with hx | hx
      · exact (hx₁ x (Option.mem_toList.1 hx)).mono (.refl r) hp₂
      · exact (hx₂ x hx).mono hp₁ (.refl _)
    · -- names bound for the first literal were handed out before those for the others
      dsimp only
      rw [List.flatMap_append, List.map_append, List.nodup_append]
      refine ⟨?_, hn, ?_⟩
      · cases hx : (refutingUnit l i
            ((s.candidates l).filterMap fun c => s.arena.filed? c.id) r).1 with
        | none => simp
        | some x => simpa using x.matcher.nodup
      · intro a ha b hb hab
        simp only [List.mem_map, List.mem_flatMap, Option.mem_toList] at ha hb
        obtain ⟨e, ⟨x, hx, he⟩, rfl⟩ := ha
        obtain ⟨e', ⟨y, hy, he'⟩, rfl⟩ := hb
        exact ((hx₂ y hy).fresh e' he').1 (hab ▸ ((hx₁ x hx).fresh e he).2)

theorem deletions_deletes (s : Store) (cl : Clause) (r : Renamer)
    (hs : ∀ id f, s.arena.filed? id = some f → known f) :
    r.Precedes (deletions s cl r).2 ∧
      (∀ x ∈ (deletions s cl r).1, Deletes known cl r (deletions s cl r).2 x) ∧
      (((deletions s cl r).1.flatMap fun x => x.matcher.bindings).map Prod.fst).Nodup :=
  deletionsFrom_deletes hs fun _ hp => List.mk_mem_zipIdx_iff_getElem?.1 hp

/-- The matchers of all deletions in one substitution. -/
def merged (xs : List Deletion) : Subst := .ofList (xs.flatMap fun x => x.matcher.bindings)

def Deletion.removal (x : Deletion) : Removal := ⟨x.position, x.unit, x.renamed⟩

section
variable {f : Filed} {xs : List Deletion} (hclear : r.Clear f.clause)
  (hxs : ∀ x ∈ xs, Deletes known f.clause r r' x)
include hclear hxs

/-- Matchers bind new variables only, so they leave the clause as it is. -/
theorem subst_merged_eq_self : ∀ l ∈ f.clause.literals, l.subst (merged xs) = l := by
  intro l hl
  refine Literal.subst_eq_self fun x hx => Renamer.value_ofList_of_not_mem fun hm => ?_
  simp only [List.mem_map, List.mem_flatMap] at hm
  obtain ⟨b, ⟨y, hy, hb⟩, rfl⟩ := hm
  exact ((hxs y hy).fresh b hb).1 (hclear l hl b.1 hx)

/-- No two matchers bind the same variable, so together they do what each of them does. -/
theorem refutes_merged (hn : ((xs.flatMap fun x => x.matcher.bindings).map Prod.fst).Nodup) :
    ∀ x ∈ xs, x.removal.Refutes (merged xs) f.clause := by
  intro x hx
  obtain ⟨l, m, hl, hm, hmatch⟩ := (hxs x hx).refutes
  refine ⟨l, m, hl, hm, ?_⟩
  obtain ⟨hp, hmt⟩ := Subst.matchLiteral_matches hmatch
  rw [subst_merged_eq_self hclear hxs l (List.mem_of_getElem? hl),
    ← hmt.literal_eq hp fun _ _ h => h, Literal.subst_eq_inst, Literal.subst_eq_inst x.matcher]
  refine Literal.inst_congr fun z hz => ?_
  obtain ⟨u, hu⟩ := hmt.bound z hz
  rw [Subst.value_of_get? hu]
  exact Renamer.value_ofList_of_mem hn
    (List.mem_flatMap.2 ⟨x, hx, Subst.get?_eq_some_iff.1 hu⟩)

theorem unitDeleted_yields (hf : known f) (hr : r.Precedes r') (hne : xs ≠ [])
    (hn : ((xs.flatMap fun x => x.matcher.bindings).map Prod.fst).Nodup) :
    Yields known r' (unitDeleted f xs) := by
  refine ⟨⟨f :: (xs.map Deletion.removal).map Removal.unit, ?_, ?_⟩, fun l hl => ?_⟩
  · intro p hp
    rcases List.mem_cons.1 hp with rfl | hp
    · exact hf
    · simp only [List.map_map, List.mem_map] at hp
      obtain ⟨x, hx, rfl⟩ := hp
      exact (hxs x hx).known
  · have hrefutes : ∀ y ∈ xs.map Deletion.removal, y.Refutes (merged xs) f.clause := by
      intro y hy
      obtain ⟨x, hx, rfl⟩ := List.mem_map.1 hy
      exact refutes_merged hclear hxs hn x hx
    have hrest : (dropAt (xs.map fun x => (x.position : Int)) f.clause.literals).map
        (Literal.subst (merged xs)) = dropAt (xs.map fun x => (x.position : Int))
          f.clause.literals := by
      rw [List.map_congr_left fun l hl => subst_merged_eq_self hclear hxs l (mem_of_mem_dropAt hl),
        List.map_id']
    have hinf := @Inferred.unitResolvent f _ (merged xs) unitDeletionRule
      (f.derived.deepest (xs.map fun x => x.unit.derived)) (Or.inr rfl) (by simpa using hne)
      hrefutes
    simp only [List.map_map, Function.comp_def, Deletion.removal, hrest] at hinf ⊢
    exact hinf
  · exact (hclear l (mem_of_mem_dropAt (Clause.mem_ofList.1 hl))).mono hr

end

/-- What is left of a clause when literals go. -/
theorem unitDeleted_covers (f : Filed) (xs : List Deletion) :
    (unitDeleted f xs).clause.Covers f.clause := by
  have hsub : (unitDeleted f xs).clause.literals ⊆ f.clause.literals := fun l hl =>
    mem_of_mem_dropAt (Clause.mem_ofList.1 hl)
  refine ⟨((unitDeleted f xs).clause.nodup.subperm hsub).length_le, .var, fun l hl => ?_⟩
  rw [Literal.inst_var_eq_self]
  exact hsub hl

end Inference

end Elenchus

import Elenchus.Proofs.Replay

/-! A proof that replays follows from its premises, unless a step factors a literal with itself. -/

namespace Elenchus

universe u

/-! ### Recorded bindings -/

namespace Bindings

variable {β : Bindings} {t u : Term} {a b : Atom} {l m : Literal}

/-- The term that stands for a variable. What is bound to anything else stands for itself here;
applying the bindings to it fails. -/
def value (β : Bindings) (x : String) : Term := ((β.get? x).bind term?).getD (.var x)

theorem term_eq_ok {i : Item} (h : Construct.term i = .ok t) : i = .term t := by
  cases i <;> simp_all [Construct.term]

theorem applyTerms_eq_ok {ts us : List Term} {is : List Item}
    (ih : ∀ t ∈ ts, ∀ u, β.applyTerm t = .ok (.term u) → u = t.inst β.value)
    (hi : β.applyTerms ts = .ok is) (hu : is.mapM Construct.term = .ok us) :
    us = ts.map (Term.inst β.value) := by
  induction ts generalizing is us with
  | nil =>
    cases hi
    cases hu
    rfl
  | cons t ts ih' =>
    rw [applyTerms] at hi
    obtain ⟨i, hti, hi⟩ := bind_eq_ok hi
    obtain ⟨js, hjs, hi⟩ := bind_eq_ok hi
    cases hi
    rw [List.mapM_cons] at hu
    obtain ⟨u, hui, hu⟩ := bind_eq_ok hu
    obtain ⟨vs, hvs, hu⟩ := bind_eq_ok hu
    cases hu
    rw [term_eq_ok hui] at hti
    rw [List.map_cons, ih t (List.mem_cons_self ..) u hti,
      ih' (fun s hs => ih s (List.mem_cons_of_mem _ hs)) hjs hvs]

/-- Where applying bindings gives a term, it gives an instance. -/
theorem applyTerm_eq_ok (h : β.applyTerm t = .ok (.term u)) : u = t.inst β.value := by
  induction t generalizing u with
  | var x =>
    rw [applyTerm] at h
    rw [Term.inst_var, value]
    cases hx : β.get? x with
    | none => simp_all
    | some i => simp_all [term?]
  | app f ts ih =>
    rw [applyTerm] at h
    obtain ⟨is, his, h⟩ := bind_eq_ok h
    obtain ⟨us, hus, h⟩ := bind_eq_ok h
    cases h
    rw [Term.inst_app, applyTerms_eq_ok (fun t ht u => ih t ht) his hus]

theorem applyAtom_eq_ok (h : β.applyAtom a = .ok b) : b = a.inst β.value := by
  rw [applyAtom] at h
  obtain ⟨is, his, h⟩ := bind_eq_ok h
  obtain ⟨us, hus, h⟩ := bind_eq_ok h
  cases h
  rw [Atom.inst, applyTerms_eq_ok (fun t _ u => applyTerm_eq_ok) his hus]

theorem applyLiteral_eq_ok (h : β.applyLiteral l = .ok m) : m = l.inst β.value := by
  rw [applyLiteral] at h
  obtain ⟨b, hb, h⟩ := bind_eq_ok h
  cases h
  rw [Literal.inst, applyAtom_eq_ok hb]

end Bindings

namespace Proof

variable {β : Bindings} {θ : String → Term} {l m : Literal} {ls ms : List Literal} {i j : Item}
  {parents : List Clause} {d : Derivation} {c : Clause}

theorem rebuilt_eq_ok {α : Type} {r : Except ConstructError α} {a : α}
    (h : rebuilt r = .ok a) : r = .ok a := by
  cases r with
  | error e => cases h
  | ok b => exact congrArg Except.ok (Except.ok.inj h)

theorem applied_eq_ok (h : applied β ls = .ok ms) : ms = ls.map (Literal.inst β.value) := by
  replace h := rebuilt_eq_ok h
  induction ls generalizing ms with
  | nil =>
    cases h
    rfl
  | cons l ls ih =>
    rw [List.mapM_cons] at h
    obtain ⟨m, hm, h⟩ := bind_eq_ok h
    obtain ⟨ns, hns, h⟩ := bind_eq_ok h
    cases h
    rw [List.map_cons, Bindings.applyLiteral_eq_ok hm, ih hns]

theorem agree_eq_ok (h : agree β l m = .ok true) :
    l.atom.inst β.value = m.atom.inst β.value := by
  rw [agree] at h
  obtain ⟨a, ha, h⟩ := bind_eq_ok h
  obtain ⟨b, hb, h⟩ := bind_eq_ok h
  have hab : (a == b) = true := Except.ok.inj h
  rw [← Bindings.applyAtom_eq_ok (rebuilt_eq_ok ha), ← Bindings.applyAtom_eq_ok (rebuilt_eq_ok hb),
    eq_of_beq hab]

/-! ### Recorded positions -/

theorem whole?_of_int? {n : Int} (h : i.int? = some n) : i.whole? = some n := by
  cases i with
  | bool b =>
    obtain rfl : (b.toNat : Int) = n := by simpa [Item.int?] using h
    exact whole?_int b.toNat
  | int k =>
    obtain rfl : k = n := by simpa [Item.int?] using h
    exact whole?_int k
  | _ => simp [Item.int?] at h

theorem literalAt_eq_ok (h : literalAt ls i = .ok l) :
    ∃ n, i.int? = some n ∧ at? ls n = some l := by
  rw [literalAt] at h
  cases hn : i.int? with
  | none => simp [hn] at h
  | some n =>
    refine ⟨n, rfl, ?_⟩
    cases ha : at? ls n <;> simp_all

theorem mem_of_literalAt (h : literalAt ls i = .ok l) : l ∈ ls := by
  obtain ⟨n, -, ha⟩ := literalAt_eq_ok h
  rw [at?] at ha
  split at ha
  · exact List.mem_of_getElem? ha
  · split at ha
    · exact List.mem_of_getElem? ha
    · cases ha

/-- A literal that is left out stands at one of the positions, if all of them are positions. -/
theorem mem_leaveOut_or {positions : List Item} (hl : l ∈ ls)
    (hp : ∀ i ∈ positions, ∃ m, literalAt ls i = .ok m) :
    l ∈ leaveOut positions ls ∨ ∃ i ∈ positions, literalAt ls i = .ok l := by
  obtain ⟨k, hk⟩ := List.mem_iff_getElem?.1 hl
  by_cases hmem : (k : Int) ∈ positions.filterMap Item.whole?
  · right
    obtain ⟨i, hi, hw⟩ := List.mem_filterMap.1 hmem
    obtain ⟨m, hm⟩ := hp i hi
    obtain ⟨n, hn, -⟩ := literalAt_eq_ok hm
    have hnk : n = k := Option.some.inj ((whole?_of_int? hn).symm.trans hw)
    refine ⟨i, hi, ?_⟩
    simp [literalAt, hn, hnk, at?_ofNat, hk]
  · exact Or.inl (mem_dropAt.2 ⟨k, hk, hmem⟩)

/-- With one position only the literal there is left out. -/
theorem mem_leaveOut_or_eq (hl : l ∈ ls) (hm : literalAt ls i = .ok m) :
    l ∈ leaveOut [i] ls ∨ l = m := by
  have hp : ∀ j ∈ [i], ∃ m, literalAt ls j = .ok m := by
    intro j hj
    rw [List.mem_singleton.1 hj]
    exact ⟨m, hm⟩
  rcases mem_leaveOut_or hl hp with h | ⟨j, hj, hlj⟩
  · exact Or.inl h
  · rw [List.mem_singleton.1 hj, hm] at hlj
    exact Or.inr (Except.ok.inj hlj).symm

/-! ### Inferences -/

theorem twoPositions_eq_ok {is : List Item} (h : twoPositions is = .ok (i, j)) : is = [i, j] := by
  rw [twoPositions.eq_def] at h
  split at h
  · cases h
    rfl
  · cases h

theorem agrees_of_not {b : Bool} (h : ¬ (!b) = true) (hb : agree β l m = .ok b) :
    l.atom.inst β.value = m.atom.inst β.value := by
  cases b with
  | false => exact absurd rfl h
  | true => exact agree_eq_ok hb

/-- What a resolution has that can be made again. -/
theorem redoResolution_cases (h : redoResolution parents d β = .ok c) :
    ∃ (given partner : Clause) (ρ : String → Term) (i j : Item) (l m : Literal),
      parents = [given, partner] ∧ literalAt given.literals i = .ok l ∧
      literalAt (partner.literals.map (Literal.inst ρ)) j = .ok m ∧
      m.inst β.value = (l.inst β.value).negate ∧
      c = .ofList ((leaveOut [i] given.literals ++
        leaveOut [j] (partner.literals.map (Literal.inst ρ))).map (Literal.inst β.value)) := by
  rw [redoResolution.eq_def] at h
  split at h
  · next given partner =>
    obtain ⟨⟨i, j⟩, -, h⟩ := bind_eq_ok h
    obtain ⟨renamed, hren, h⟩ := bind_eq_ok h
    obtain ⟨l, hl, h⟩ := bind_eq_ok h
    obtain ⟨m, hm, h⟩ := bind_eq_ok h
    obtain ⟨hsign, h⟩ := check_eq_ok h
    obtain ⟨b, hb, h⟩ := bind_eq_ok h
    obtain ⟨hagree, h⟩ := check_eq_ok h
    obtain ⟨rest, hrest, h⟩ := bind_eq_ok h
    cases h
    obtain rfl := applied_eq_ok hren
    refine ⟨given, partner, _, i, j, l, m, rfl, hl, hm, ?_, ?_⟩
    · exact Literal.eq_negate_iff.2 ⟨hsign, agrees_of_not hagree hb⟩
    · rw [applied_eq_ok hrest]
  · cases h

/-- What a factoring has that can be made again. -/
theorem redoFactoring_cases (h : redoFactoring parents d β = .ok c) :
    ∃ (parent : Clause) (i j : Item) (l m : Literal),
      parents = [parent] ∧ d.indices = [i, j] ∧ literalAt parent.literals i = .ok l ∧
      literalAt parent.literals j = .ok m ∧ m.inst β.value = l.inst β.value ∧
      c = .ofList ((leaveOut [j] parent.literals).map (Literal.inst β.value)) := by
  rw [redoFactoring.eq_def] at h
  split at h
  · next parent =>
    obtain ⟨⟨i, j⟩, hij, h⟩ := bind_eq_ok h
    obtain ⟨l, hl, h⟩ := bind_eq_ok h
    obtain ⟨m, hm, h⟩ := bind_eq_ok h
    obtain ⟨hsign, h⟩ := check_eq_ok h
    obtain ⟨b, hb, h⟩ := bind_eq_ok h
    obtain ⟨hagree, h⟩ := check_eq_ok h
    obtain ⟨rest, hrest, h⟩ := bind_eq_ok h
    cases h
    refine ⟨parent, i, j, l, m, rfl, twoPositions_eq_ok hij, hl, hm, ?_, ?_⟩
    · rw [Literal.inst, Literal.inst, agrees_of_not hagree hb, not_not.1 hsign]
    · rw [applied_eq_ok hrest]
  · cases h

/-- Every listed position is refuted by a unit, renamed in some way. -/
theorem checkUnits_cases {is : List Item} {units : List Clause} {ρs : List Bindings}
    (h : checkUnits c β is units ρs = .ok ()) (hu : is.length = units.length)
    (hρ : is.length = ρs.length) (hi : i ∈ is) :
    ∃ unit ∈ units, ∃ (ρ : String → Term) (l k : Literal), unit.literals = [k] ∧
      literalAt c.literals i = .ok l ∧ (k.inst ρ).inst β.value = (l.inst β.value).negate := by
  induction is generalizing units ρs with
  | nil => cases hi
  | cons i' is ih =>
    obtain ⟨u, us, rfl⟩ := List.exists_cons_of_length_eq_add_one hu.symm
    obtain ⟨ρ, ρs, rfl⟩ := List.exists_cons_of_length_eq_add_one hρ.symm
    rw [checkUnits] at h
    split at h
    · next k hk =>
      obtain ⟨l, hl, h⟩ := bind_eq_ok h
      obtain ⟨m, hm, h⟩ := bind_eq_ok h
      obtain ⟨hsign, h⟩ := check_eq_ok h
      obtain ⟨b, hb, h⟩ := bind_eq_ok h
      obtain ⟨hagree, h⟩ := check_eq_ok h
      rcases List.mem_cons.1 hi with rfl | hi
      · refine ⟨u, List.mem_cons_self .., ρ.value, l, k, hk, hl, ?_⟩
        rw [← Bindings.applyLiteral_eq_ok (rebuilt_eq_ok hm)]
        exact Literal.eq_negate_iff.2 ⟨hsign, agrees_of_not hagree hb⟩
      · obtain ⟨unit, hunit, hrest⟩ := ih h (by simpa using hu) (by simpa using hρ) hi
        exact ⟨unit, List.mem_cons_of_mem _ hunit, hrest⟩
    · cases h

/-- What a unit resolution has that can be made again. -/
theorem redoUnitResolution_cases (h : redoUnitResolution parents d β = .ok c) :
    ∃ (parent : Clause) (units : List Clause), parents = parent :: units ∧
      (∀ i ∈ d.indices, ∃ unit ∈ units, ∃ (ρ : String → Term) (l k : Literal),
        unit.literals = [k] ∧ literalAt parent.literals i = .ok l ∧
        (k.inst ρ).inst β.value = (l.inst β.value).negate) ∧
      c = .ofList ((leaveOut d.indices parent.literals).map (Literal.inst β.value)) := by
  rw [redoUnitResolution.eq_def] at h
  split at h
  · cases h
  · next parent units =>
    split at h
    · cases h
    · next hcount =>
      obtain ⟨⟨⟩, hunits, h⟩ := bind_eq_ok h
      obtain ⟨rest, hrest, h⟩ := bind_eq_ok h
      cases h
      simp only [not_or, not_not] at hcount
      refine ⟨parent, units, rfl, fun i hi => ?_, by rw [applied_eq_ok hrest]⟩
      exact checkUnits_cases hunits hcount.2.1.symm (hcount.2.1.symm.trans hcount.2.2) hi

/-! ### Soundness of a step -/

section
variable {D : Type u} {M : Structure D} {v : String → D}

/-- An instance of a true clause has a true literal. -/
theorem exists_holds_inst (h : M.Satisfies c) (θ : String → Term) (v : String → D) :
    ∃ l ∈ c.literals, (l.inst θ).Holds M v := by
  obtain ⟨l, hl, hv⟩ := h fun x => (θ x).eval M.fn v
  exact ⟨l, hl, Literal.holds_inst.2 hv⟩

theorem holds_ofList (hl : l ∈ ls) (hv : (l.inst θ).Holds M v) :
    (Clause.ofList (ls.map (Literal.inst θ))).Holds M v :=
  ⟨l.inst θ, Clause.mem_ofList.2 (List.mem_map_of_mem hl), hv⟩

theorem redoResolution_sound (h : redoResolution parents d β = .ok c)
    (hp : ∀ p ∈ parents, M.Satisfies p) : M.Satisfies c := by
  obtain ⟨given, partner, ρ, i, j, l, m, rfl, hl, hm, hσ, rfl⟩ := redoResolution_cases h
  intro v
  obtain ⟨l', hl', hv⟩ := exists_holds_inst (hp given (by simp)) β.value v
  rcases mem_leaveOut_or_eq hl' hl with hrest | rfl
  · exact holds_ofList (List.mem_append_left _ hrest) hv
  · -- the resolved literal holds, so another literal of the partner does
    obtain ⟨m', hm', hv'⟩ := exists_holds_inst (hp partner (by simp)) ρ fun x =>
      (β.value x).eval M.fn v
    rw [← Literal.holds_inst] at hv'
    rcases mem_leaveOut_or_eq (List.mem_map_of_mem hm') hm with hrest | rfl
    · exact holds_ofList (List.mem_append_right _ hrest) hv'
    · rw [hσ, Literal.holds_negate] at hv'
      exact absurd hv hv'

/-- A factoring of a literal with itself that drops the literal. -/
def FactorsAway (parents : List Clause) (d : Derivation) : Prop :=
  d.isBy factoringRule = true ∧ ∃ (parent : Clause) (i j : Item) (l : Literal),
    parents = [parent] ∧ d.indices = [i, j] ∧ literalAt parent.literals i = .ok l ∧
      literalAt parent.literals j = .ok l ∧ l ∉ leaveOut [j] parent.literals

theorem redoFactoring_sound (h : redoFactoring parents d β = .ok c)
    (hd : d.isBy factoringRule = true) (hf : ¬ FactorsAway parents d)
    (hp : ∀ p ∈ parents, M.Satisfies p) : M.Satisfies c := by
  obtain ⟨parent, i, j, l, m, rfl, hij, hl, hm, hσ, rfl⟩ := redoFactoring_cases h
  -- the literal that the dropped one is merged with stays
  have hstays : l ∈ leaveOut [j] parent.literals := by
    rcases mem_leaveOut_or_eq (mem_of_literalAt hl) hm with hrest | rfl
    · exact hrest
    · by_contra hno
      exact hf ⟨hd, parent, i, j, l, rfl, hij, hl, hm, hno⟩
  intro v
  obtain ⟨n, hn, hv⟩ := exists_holds_inst (hp parent (by simp)) β.value v
  rcases mem_leaveOut_or_eq hn hm with hrest | rfl
  · exact holds_ofList hrest hv
  · rw [hσ] at hv
    exact holds_ofList hstays hv

theorem redoUnitResolution_sound (h : redoUnitResolution parents d β = .ok c)
    (hp : ∀ p ∈ parents, M.Satisfies p) : M.Satisfies c := by
  obtain ⟨parent, units, rfl, hunits, rfl⟩ := redoUnitResolution_cases h
  intro v
  obtain ⟨l, hl, hv⟩ := exists_holds_inst (hp parent (List.mem_cons_self ..)) β.value v
  have hpos : ∀ i ∈ d.indices, ∃ m, literalAt parent.literals i = .ok m := by
    intro i hi
    obtain ⟨-, -, -, m, -, -, hm, -⟩ := hunits i hi
    exact ⟨m, hm⟩
  rcases mem_leaveOut_or hl hpos with hrest | ⟨i, hi, hli⟩
  · exact holds_ofList hrest hv
  · -- the unit for this position makes the literal false
    obtain ⟨unit, hunit, ρ, l', k, hk, hl', hσ⟩ := hunits i hi
    obtain rfl : l = l' := Except.ok.inj (hli.symm.trans hl')
    obtain ⟨k', hk', hv'⟩ := exists_holds_inst (hp unit (List.mem_cons_of_mem _ hunit)) ρ fun x =>
      (β.value x).eval M.fn v
    rw [hk, List.mem_singleton] at hk'
    rw [← Literal.holds_inst, hk', hσ, Literal.holds_negate] at hv'
    exact absurd hv hv'

theorem redo_sound (h : redo parents d = .ok c) (hf : ¬ FactorsAway parents d)
    (hp : ∀ p ∈ parents, M.Satisfies p) : M.Satisfies c := by
  simp only [redo] at h
  split at h
  · exact redoResolution_sound h hp
  · split at h
    · next hd => exact redoFactoring_sound h hd hf hp
    · split at h
      · exact redoUnitResolution_sound h hp
      · cases h

end

/-! ### Soundness of a trace -/

/-- A step that is recorded as a factoring of a literal with itself. -/
def Step.FactorsAway (steps : List Step) (s : Step) : Prop :=
  ∃ d parents, s.derived.derivation = some d ∧
    (s.parents.mapM fun p => steps[p]?.map Step.clause) = some parents ∧
    Proof.FactorsAway parents d

/-- Every step comes after its parents. -/
def Trace.Ordered (t : Trace) : Prop :=
  ∀ k (s : Step), t.steps[k]? = some s → ∀ p ∈ s.parents, p < k

section
variable {steps rest : List Step} {s : Step}

theorem replayStep_of_replayFrom (h : replayFrom steps rest = .ok ()) (hs : s ∈ rest) :
    replayStep steps s = .ok () := by
  induction rest with
  | nil => cases hs
  | cons s' rest ih =>
    rw [replayFrom] at h
    split at h
    · cases h
    · next hok =>
      rcases List.mem_cons.1 hs with rfl | hs
      · exact hok
      · exact ih h hs

/-- A step that replays is a premise, or its clause can be inferred again from its parents. -/
theorem replayStep_cases (h : replayStep steps s = .ok ()) :
    s.isPremise = true ∨ ∃ d parents c, s.derived.derivation = some d ∧
      (s.parents.mapM fun p => steps[p]?.map Step.clause) = some parents ∧
      redo parents d = .ok c ∧ c.alike s.clause = true := by
  rw [replayStep] at h
  split at h
  · next hprem => exact Or.inl hprem
  · split at h
    · cases h
    · cases h
    · next d parents hd hparents =>
      obtain ⟨c, hc, h⟩ := bind_eq_ok h
      split at h
      · next halike => exact Or.inr ⟨d, parents, c, hd, hparents, hc, halike⟩
      · cases h

variable {D : Type u} {M : Structure D}

/-- What one step keeps: if the clauses of its parents are true, so is its own. -/
theorem replayStep_sound (h : replayStep steps s = .ok ()) (hf : ¬ s.FactorsAway steps)
    (hprem : s.isPremise = true → M.Satisfies s.clause)
    (hparents : ∀ p ∈ s.parents, ∀ q, steps[p]? = some q → M.Satisfies q.clause) :
    M.Satisfies s.clause := by
  rcases replayStep_cases h with hs | ⟨d, parents, c, hd, hmap, hredo, halike⟩
  · exact hprem hs
  · have hc : M.Satisfies c := by
      refine redo_sound hredo (fun hno => hf ⟨d, parents, hd, hmap, hno⟩) fun b hb => ?_
      obtain ⟨p, hp, hpb⟩ := exists_of_mem_mapM hmap hb
      obtain ⟨q, hq, rfl⟩ := Option.map_eq_some_iff.1 hpb
      exact hparents p hp q hq
    intro v
    obtain ⟨l, hl, hv⟩ := hc v
    exact ⟨l, (Clause.mem_iff_of_alike halike).1 hl, hv⟩

end

/-- In a trace that replays, every clause follows from the premises, as long as no step factors a
literal with itself. -/
theorem Trace.replay_sound {t : Trace} (ho : t.Ordered)
    (hf : ∀ s ∈ t.steps, ¬ s.FactorsAway t.steps) (h : t.replay = .ok ()) {D : Type u}
    (M : Structure D) (hM : ∀ s ∈ t.premises, M.Satisfies s.clause) :
    ∀ s ∈ t.steps, M.Satisfies s.clause := by
  -- by induction on the position, as parents come first
  have key : ∀ (k : Nat) (s : Step), t.steps[k]? = some s → M.Satisfies s.clause := by
    intro k
    induction k using Nat.strong_induction_on with
    | _ k ih =>
      intro s hk
      have hs : s ∈ t.steps := List.mem_of_getElem? hk
      refine replayStep_sound (replayStep_of_replayFrom h hs) (hf s hs) (fun hprem => ?_) ?_
      · exact hM s (List.mem_filter.2 ⟨hs, hprem⟩)
      · intro p hp q hq
        exact ih p (ho k s hk p hp) q hq
  intro s hs
  obtain ⟨k, hk⟩ := List.getElem?_of_mem hs
  exact key k s hk

/-- A step of a trace that is made by hand. -/
def Step.ofParts (index : Nat) (ls : List Literal) (parents : List Nat := [])
    (derivation : Option Derivation := none) : Step :=
  { index, id := index, label := .int index, derived := ⟨.ofList ls, derivation⟩, parents }

/-- Of any two things one is less, so something is less than itself. -/
def selfLess : Trace :=
  ⟨[.ofParts 0 [.pos ⟨"less", [.var "x", .var "y"]⟩, .pos ⟨"less", [.var "y", .var "x"]⟩],
    .ofParts 1 [.neg ⟨"less", [.const "zero", .const "zero"]⟩],
    .ofParts 2 [.pos ⟨"less", [.var "x", .var "x"]⟩] [0] (some
      { rule := .str factoringRule
        unifier := some ⟨[("y", .term (.var "x"))]⟩
        indices := [.int 0, .int 1] }),
    .ofParts 3 [] [2, 1] (some
      { rule := .str resolutionRule
        unifier := some ⟨[("x", .term (.const "zero"))]⟩
        indices := [.int 0, .int 0] })]⟩

theorem ordered_selfLess : selfLess.Ordered := by
  intro k s hk p hp
  rcases k with _ | _ | _ | _ | k
  all_goals cases hk
  · cases hp
  · cases hp
  · simp_all [Step.ofParts]
  · simp_all [Step.ofParts]
    omega

-- the one factoring step merges different literals
theorem not_factorsAway_selfLess : ∀ s ∈ selfLess.steps, ¬ s.FactorsAway selfLess.steps := by
  have hfactoring : ∀ s ∈ selfLess.steps, ∀ d, s.derived.derivation = some d →
      d.isBy factoringRule = true → s.parents = [0] ∧ d.indices = [.int 0, .int 1] := by
    simp only [selfLess, Step.ofParts, List.forall_mem_cons]
    refine ⟨nofun, nofun, ?_, ?_, nofun⟩
    · rintro d ⟨⟩ -
      simp
    · rintro d ⟨⟩ hno
      exact absurd hno (by decide)
  rintro s hs ⟨d, parents, hd, hmap, hby, c, i, j, l, rfl, hij, hl, hm, -⟩
  obtain ⟨hparents, hindices⟩ := hfactoring s hs d hd hby
  obtain ⟨rfl, rfl⟩ : Item.int 0 = i ∧ Item.int 1 = j := by simpa [hindices] using hij
  rw [hparents] at hmap
  cases hmap
  obtain rfl : Literal.pos ⟨"less", [.var "x", .var "y"]⟩ = l := Except.ok.inj hl
  have : Literal.pos ⟨"less", [.var "y", .var "x"]⟩ = .pos ⟨"less", [.var "x", .var "y"]⟩ :=
    Except.ok.inj hm
  exact absurd this (by decide)

theorem Trace.replay_sound_selfLess :
    selfLess.Ordered ∧ (∀ s ∈ selfLess.steps, ¬ s.FactorsAway selfLess.steps) ∧
      selfLess.replay = .ok () ∧
      ∀ M : Structure Nat, ¬ ∀ s ∈ selfLess.premises, M.Satisfies s.clause := by
  have hreplay : selfLess.replay = .ok () := eq_ok_of_toOption (by decide +kernel)
  refine ⟨ordered_selfLess, not_factorsAway_selfLess, hreplay, fun M hM => ?_⟩
  have hall := replay_sound ordered_selfLess not_factorsAway_selfLess hreplay M hM
  obtain ⟨l, hl, -⟩ := hall _ (List.mem_of_getElem? (i := 3) rfl) fun _ => 0
  cases hl

/-- A disjunction that loses a literal. -/
def halved : Trace :=
  ⟨[.ofParts 0 [.pos ⟨"even", [.const "two"]⟩, .pos ⟨"odd", [.const "two"]⟩],
    .ofParts 1 [.pos ⟨"odd", [.const "two"]⟩] [0] (some
      { rule := .str factoringRule
        indices := [.int 0, .int 0] })]⟩

/-- Even numbers only. -/
def evens : Structure Unit := ⟨fun _ _ => (), fun p _ => p = "even"⟩

theorem replay_halved :
    halved.Ordered ∧ halved.replay = .ok () ∧
      (∀ s ∈ halved.premises, evens.Satisfies s.clause) ∧
      ¬ ∀ s ∈ halved.steps, evens.Satisfies s.clause := by
  refine ⟨?_, eq_ok_of_toOption (by decide +kernel), ?_, fun hall => ?_⟩
  · intro k s hk p hp
    rcases k with _ | _ | k
    all_goals cases hk
    · cases hp
    · simp_all [Step.ofParts]
  · intro s hs v
    have hs : s ∈ [_] := hs
    obtain rfl := List.mem_singleton.1 hs
    refine ⟨.pos ⟨"even", [.const "two"]⟩, List.mem_cons_self .., ?_⟩
    simp [Literal.Holds, Literal.pos, Atom.Holds, evens]
  · obtain ⟨l, hl, hv⟩ := hall _ (List.mem_of_getElem? (i := 1) rfl) fun _ => ()
    obtain rfl := List.mem_singleton.1 hl
    simp [Literal.Holds, Literal.pos, Atom.Holds, evens] at hv

end Proof

end Elenchus

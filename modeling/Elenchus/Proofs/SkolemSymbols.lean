import Elenchus.Proofs.SymbolTables

/-! Skolem symbols over a whole history of formulas that share one table. -/

namespace Elenchus

variable {sig sig₁ sig₂ sig' : Signature} {f g : Formula}

/-! ### Symbols as they are written -/

namespace Formula

variable {a : Atom} {arities : List Item} {allowReserved : Bool}

/-- The numbers of arguments are written as what they are, as far as that is known. Symbols cannot
be applied in any other way. -/
def WrittenWith (f : Formula) (arities : List Item) : Prop :=
  ∀ p ∈ (f.atoms.flatMap atomUses).zip arities, p.2.int? = p.1.entry.arity.int?

instance (f : Formula) (arities : List Item) : Decidable (f.WrittenWith arities) :=
  List.decidableBAll ..

/-- The names of the predicates, functions and constants. -/
def names (f : Formula) : List String :=
  f.atoms.flatMap fun a => a.pred :: a.symbols.map Symbol.name

theorem exists_of_mem_asWritten {us : List SymbolUse} {w : SymbolUse}
    (h : w ∈ asWritten us arities) :
    ∃ u ∈ us, w.name = u.name ∧ w.entry.kind = u.entry.kind ∧
      (w.entry.arity = u.entry.arity ∨ (u, w.entry.arity) ∈ us.zip arities) := by
  induction us generalizing arities with
  | nil => cases arities <;> cases h
  | cons u us ih =>
    cases arities with
    | nil => exact ⟨w, h, rfl, rfl, Or.inl rfl⟩
    | cons n ns =>
      rcases List.mem_cons.1 h with rfl | h
      · exact ⟨u, List.mem_cons_self .., rfl, rfl, Or.inr (List.mem_cons_self ..)⟩
      · obtain ⟨t, ht, hname, hkind, harity⟩ := ih h
        exact ⟨t, List.mem_cons_of_mem _ ht, hname, hkind,
          harity.imp_right (List.mem_cons_of_mem _)⟩

theorem WrittenWith.int?_eq (h : f.WrittenWith arities) {u : SymbolUse} {n : Item}
    (hn : n = u.entry.arity ∨ (u, n) ∈ (f.atoms.flatMap atomUses).zip arities) :
    n.int? = u.entry.arity.int? := by
  rcases hn with rfl | hn
  · rfl
  · exact h (u, n) hn

theorem isPlain_atomUses {u : SymbolUse} (hu : u ∈ atomUses a) : u.entry.IsPlain := by
  rcases List.mem_cons.1 hu with rfl | hu
  · exact ⟨Or.inl rfl, _, rfl⟩
  · obtain ⟨s, -, rfl⟩ := List.mem_map.1 hu
    exact ⟨Or.inr rfl, _, rfl⟩

theorem WrittenWith.isPlain (h : f.WrittenWith arities) :
    ∀ w ∈ f.uses allowReserved arities, w.entry.IsPlain := by
  intro w hw
  obtain ⟨u, hu, -, hkind, harity⟩ := exists_of_mem_asWritten (List.mem_filter.1 hw).1
  obtain ⟨a, -, hu⟩ := List.mem_flatMap.1 hu
  have := isPlain_atomUses hu
  rwa [SymbolEntry.IsPlain, ← hkind, ← h.int?_eq harity] at this

/-- Every occurrence of a symbol is looked at, reserved predicates apart where they are allowed. -/
theorem WrittenWith.exists_use (h : f.WrittenWith arities) (ha : a ∈ f.atoms) {u : SymbolUse}
    (hu : u ∈ atomUses a)
    (hr : u.entry.kind = .predicate → (allowReserved && isReserved u.name) = false) :
    ∃ w ∈ f.uses allowReserved arities, w.name = u.name ∧ w.entry.Agrees u.entry := by
  obtain ⟨w, hw, hname, hkind, harity⟩ := mem_asWritten (List.mem_flatMap.2 ⟨a, ha, hu⟩) arities
  refine ⟨w, List.mem_filter.2 ⟨hw, ?_⟩, hname, hkind, h.int?_eq harity⟩
  rw [hname, hkind]
  rcases (isPlain_atomUses hu).1 with hp | hp
  · simp [hr hp]
  · simp [hp, SymbolKind.same, SymbolKind.label, Item.same]

end Formula

namespace Signature

variable {allowReserved : Bool} {arities : List Item}

/-- What the table knows about an accepted formula. -/
theorem check_knows (hp : sig.IsPlain) (hw : f.WrittenWith arities)
    (h : sig.check allowReserved arities f = (sig', none)) :
    sig'.IsPlain ∧ ∀ a ∈ f.atoms,
      ((allowReserved && isReserved a.pred) = false →
        sig'.Knows .predicate a.predicate ∧ a.pred ∉ sig.skolems) ∧
      ∀ s ∈ a.symbols, sig'.Knows .function s ∧ s.name ∉ sig.skolems := by
  rw [check] at h
  split at h
  · cases h
  · split at h
    · cases h
    · next sig₁ hrec =>
      split at h
      · cases h
        obtain ⟨hp', hknown⟩ := record_isPlain hp hw.isPlain hrec
        obtain ⟨-, -, hnew⟩ := record_grows hrec
        have hused : ∀ a ∈ f.atoms, ∀ u ∈ Formula.atomUses a,
            (u.entry.kind = .predicate → (allowReserved && isReserved u.name) = false) →
            (∃ e, sig'.find? u.name = some e ∧ e.Agrees u.entry) ∧ u.name ∉ sig.skolems := by
          intro a ha u hu hr
          obtain ⟨w, hm, hname, hkind, harity⟩ := hw.exists_use ha hu hr
          obtain ⟨e, he, hek, hea⟩ := hknown w hm
          rw [← hname]
          exact ⟨⟨e, he, hek.trans hkind, hea.trans harity⟩, (hnew w hm).2.1⟩
        refine ⟨hp', fun a ha => ⟨fun hr => ?_, fun s hs => ?_⟩⟩
        · exact hused a ha _ (List.mem_cons_self ..) fun _ => hr
        · exact hused a ha _ (List.mem_cons_of_mem _ (List.mem_map_of_mem hs)) (by rintro ⟨⟩)
      · cases h

/-! ### Drawing Skolem symbols -/

variable {names names' : List String}

/-- What drawing some Skolem symbols does to a table. -/
structure Draws (sig : Signature) (names : List String) (sig' : Signature) : Prop where
  grows : sig.Grows sig'
  plain : sig.IsPlain → sig'.IsPlain
  skolems : sig'.skolems = sig.skolems ++ names
  nodup : names.Nodup
  fresh : ∀ n ∈ names, sig.find? n = none
  known : ∀ n ∈ names, sig'.contains n = true
  numbered : ∀ n ∈ names, ∃ k, n = skolemName k

theorem Draws.refl (sig : Signature) : sig.Draws [] sig where
  grows := .refl sig
  plain h := h
  skolems := (List.append_nil _).symm
  nodup := List.nodup_nil
  fresh := by simp
  known := by simp
  numbered := by simp

theorem Draws.append (h : sig.Draws names sig₁) (h' : sig₁.Draws names' sig') :
    sig.Draws (names ++ names') sig' where
  grows := h.grows.trans h'.grows
  plain hp := h'.plain (h.plain hp)
  skolems := by rw [h'.skolems, h.skolems, List.append_assoc]
  nodup := by
    refine List.nodup_append.2 ⟨h.nodup, h'.nodup, fun n hn m hm => ?_⟩
    -- what was drawn first is known when the next ones are drawn
    rintro rfl
    have hknown := h.known n hn
    simp [contains, h'.fresh n hm] at hknown
  fresh n hn := (List.mem_append.1 hn).elim (h.fresh n) fun hn => h.grows.find_none (h'.fresh n hn)
  known n hn :=
    (List.mem_append.1 hn).elim (fun hn => h'.grows.contains (h.known n hn)) (h'.known n)
  numbered n hn := (List.mem_append.1 hn).elim (h.numbered n) (h'.numbered n)

theorem draws_freshSkolem (sig : Signature) (k : Nat) :
    sig.Draws [(sig.freshSkolem (.int k)).1] (sig.freshSkolem (.int k)).2 where
  grows := sig.grows_freshSkolem _
  plain hp n e he := by
    rw [freshSkolem_find?] at he
    split at he
    · cases he
      exact ⟨Or.inr rfl, k, rfl⟩
    · exact hp n e he
  skolems := rfl
  nodup := List.nodup_singleton _
  fresh := by simp [freshSkolem_free]
  known := by simp [contains, freshSkolem_find?]
  numbered n hn := ⟨_, List.mem_singleton.1 hn⟩

theorem knows_freshSkolem (sig : Signature) (k : Nat) :
    (sig.freshSkolem (.int k)).2.Knows .function ⟨(sig.freshSkolem (.int k)).1, k⟩ :=
  ⟨⟨.function, .int k⟩, by rw [freshSkolem_find?, if_pos rfl], rfl, rfl⟩

end Signature

namespace Formula

/-- Skolemization with given names, one for each existential quantifier from left to right. The
function of that name, applied to the variables of the universal quantifiers around, stands for
the quantified variable. -/
inductive SkolemizedBy : List String → Subst → Formula → List String → Formula → Prop
  | atomic (scope : List String) (σ : Subst) (a : Atom) :
    SkolemizedBy scope σ (.atomic a) [] (.atomic (a.subst σ))
  | negated (scope : List String) (σ : Subst) (a : Atom) :
    SkolemizedBy scope σ (.not (.atomic a)) [] (.not (.atomic (a.subst σ)))
  | and {scope : List String} {σ : Subst} {f g f' g' : Formula} {ns ms : List String}
    (hf : SkolemizedBy scope σ f ns f') (hg : SkolemizedBy scope σ g ms g') :
    SkolemizedBy scope σ (.and f g) (ns ++ ms) (.and f' g')
  | or {scope : List String} {σ : Subst} {f g f' g' : Formula} {ns ms : List String}
    (hf : SkolemizedBy scope σ f ns f') (hg : SkolemizedBy scope σ g ms g') :
    SkolemizedBy scope σ (.or f g) (ns ++ ms) (.or f' g')
  | all {scope : List String} {σ : Subst} {x : String} {f f' : Formula} {ns : List String}
    (hf : SkolemizedBy (scope ++ [x]) σ f ns f') :
    SkolemizedBy scope σ (.all (.var x) f) ns (.all (.var x) f')
  | ex {scope : List String} {σ : Subst} {x n : String} {f f' : Formula} {ns : List String}
    (hf : SkolemizedBy scope (σ.bind x (.app n (scope.map .var))) f ns f') :
    SkolemizedBy scope σ (.ex (.var x) f) (n :: ns) f'

/-- Skolemization draws a name for each existential quantifier. -/
theorem IsNnf.exists_skolemizedBy (hf : f.IsNnf) (scope : List String) (σ : Subst)
    (sig : Signature) :
    ∃ names, SkolemizedBy scope σ f names (f.skolemizeFrom (scope.map .var) σ sig).1 ∧
      sig.Draws names (f.skolemizeFrom (scope.map .var) σ sig).2 := by
  induction hf generalizing scope σ sig with
  | atomic a => exact ⟨[], .atomic scope σ a, .refl sig⟩
  | negated a => exact ⟨[], .negated scope σ a, .refl sig⟩
  | @and f g _ _ ihf ihg =>
    obtain ⟨ns, hf, hd⟩ := ihf scope σ sig
    obtain ⟨ms, hg, hd'⟩ := ihg scope σ (f.skolemizeFrom (scope.map .var) σ sig).2
    exact ⟨ns ++ ms, .and hf hg, hd.append hd'⟩
  | @or f g _ _ ihf ihg =>
    obtain ⟨ns, hf, hd⟩ := ihf scope σ sig
    obtain ⟨ms, hg, hd'⟩ := ihg scope σ (f.skolemizeFrom (scope.map .var) σ sig).2
    exact ⟨ns ++ ms, .or hf hg, hd.append hd'⟩
  | @all x f _ ih =>
    obtain ⟨ns, hf, hd⟩ := ih (scope ++ [x]) σ sig
    rw [skolemizeFrom_all]
    exact ⟨ns, .all hf, hd⟩
  | @ex x f _ ih =>
    obtain ⟨ns, hf, hd⟩ := ih scope (σ.bind x (skolemTerm sig scope))
      (sig.freshSkolem (.int scope.length)).2
    rw [skolemizeFrom_ex]
    exact ⟨_ :: ns, .ex hf, (sig.draws_freshSkolem scope.length).append hd⟩

theorem IsNnf.grows_skolemizeFrom (hf : f.IsNnf) (scope : List String) (σ : Subst)
    (sig : Signature) : sig.Grows (f.skolemizeFrom (scope.map .var) σ sig).2 := by
  obtain ⟨names, -, hd⟩ := hf.exists_skolemizedBy scope σ sig
  exact hd.grows

section
variable {σ : Subst} (hσ : ∀ x, ∀ s ∈ (σ.value x).symbols, sig.Knows .function s)
include hσ

theorem knows_subst {a : Atom} (hk : ∀ s ∈ a.symbols, sig.Knows .function s) :
    ∀ s ∈ (a.subst σ).symbols, sig.Knows .function s := by
  intro s hs
  rw [Atom.subst_eq_inst, Atom.mem_symbols_inst] at hs
  rcases hs with hs | ⟨x, -, hs⟩
  · exact hk s hs
  · exact hσ x s hs

theorem knows_bind_skolemTerm (scope : List String) (x : String) :
    ∀ z, ∀ s ∈ ((σ.bind x (skolemTerm sig scope)).value z).symbols,
      (sig.freshSkolem (.int scope.length)).2.Knows .function s := by
  have hgrows := sig.grows_freshSkolem (.int scope.length)
  have hterm : ∀ s ∈ (skolemTerm sig scope).symbols,
      (sig.freshSkolem (.int scope.length)).2.Knows .function s := by
    intro s hs
    simp only [skolemTerm, Term.symbols, Term.symbolsList_eq_flatMap, List.mem_cons,
      List.mem_flatMap, List.mem_map] at hs
    rcases hs with rfl | ⟨-, ⟨y, -, rfl⟩, hs⟩
    · rw [List.length_map]
      exact sig.knows_freshSkolem scope.length
    · cases hs
  intro z s hs
  rw [Subst.value_bind] at hs
  split at hs
  · exact hterm s hs
  · rw [Term.subst_eq_inst, Term.mem_symbols_inst] at hs
    rcases hs with hs | ⟨y, -, hs⟩
    · exact (hσ z s hs).mono hgrows
    · rw [Subst.value_single] at hs
      split at hs
      · exact hterm s hs
      · cases hs

/-- Function symbols are known after Skolemization as they are used. -/
theorem IsNnf.knows_skolemizeFrom (hf : f.IsNnf) (scope : List String)
    (hk : ∀ a ∈ f.atoms, ∀ s ∈ a.symbols, sig.Knows .function s) :
    ∀ b ∈ (f.skolemizeFrom (scope.map .var) σ sig).1.atoms, ∀ s ∈ b.symbols,
      (f.skolemizeFrom (scope.map .var) σ sig).2.Knows .function s := by
  induction hf generalizing scope σ sig with
  | atomic a =>
    intro b hb
    rw [List.mem_singleton.1 hb]
    exact knows_subst hσ (hk a (List.mem_singleton_self a))
  | negated a =>
    intro b hb
    rw [List.mem_singleton.1 hb]
    exact knows_subst hσ (hk a (List.mem_singleton_self a))
  | @and f g hf hg ihf ihg | @or f g hf hg ihf ihg =>
    have hgrows := hf.grows_skolemizeFrom scope σ sig
    intro b hb s hs
    rcases List.mem_append.1 hb with hb | hb
    · have := ihf hσ scope (fun a ha => hk a (List.mem_append_left _ ha)) b hb s hs
      exact this.mono (hg.grows_skolemizeFrom scope σ _)
    · refine ihg (fun x s hs => (hσ x s hs).mono hgrows) scope (fun a ha s hs => ?_) b hb s hs
      exact (hk a (List.mem_append_right _ ha) s hs).mono hgrows
  | all _ ih =>
    rw [skolemizeFrom_all]
    exact ih hσ _ hk
  | @ex x f _ ih =>
    rw [skolemizeFrom_ex]
    have hgrows := sig.grows_freshSkolem (.int scope.length)
    exact ih (knows_bind_skolemTerm hσ scope x) scope fun a ha s hs => (hk a ha s hs).mono hgrows

end

end Formula

/-! ### Histories -/

/-- A formula that was accepted, its clauses, and the Skolem symbols that were drawn for it. -/
structure Admission where
  formula : Formula
  options : NormalFormOptions
  derived : List Derived
  skolems : List String

namespace Admission

/-- Each existential quantifier of the closed formula in negation normal form has a Skolem symbol,
in the order of the symbols, and the clauses are those of the formula with these. -/
def IsSkolemized (c : Admission) : Prop :=
  ∃ sig g, Formula.SkolemizedBy [] .empty (c.formula.prepared sig).1 c.skolems g ∧
    c.derived.map Derived.clause = dropAlike (g.matrix.conjuncts.map Clause.ofList)

/-- The table has the symbols of the clauses as they are used, reserved predicates apart where they
are allowed. -/
def IsKnown (c : Admission) (sig : Signature) : Prop :=
  ∀ d ∈ c.derived, ∀ l ∈ d.clause.literals,
    ((c.options.allowReserved && isReserved l.atom.pred) = false →
      sig.Knows .predicate l.atom.predicate) ∧
    ∀ s ∈ l.atom.symbols, sig.Knows .function s

end Admission

/-- A table, and what was accepted with it. -/
structure Admissions where
  signature : Signature := {}
  accepted : List Admission := []

namespace Admissions

/-- The next formula comes in. -/
def next (h : Admissions) (o : NormalFormOptions) (f : Formula) : Admissions :=
  match h.signature.normalize o f with
  | (.ok ds, sig) =>
    ⟨sig, h.accepted ++ [⟨f, o, ds, sig.skolems.drop h.signature.skolems.length⟩]⟩
  | (.error _, sig) => { h with signature := sig }

/-- Formulas come in one by one, with an empty table at first. -/
def ofInputs (inputs : List (NormalFormOptions × Formula)) : Admissions :=
  inputs.foldl (fun h p => h.next p.1 p.2) {}

end Admissions

namespace Signature

/-- What accepting a formula does: the table gets to know its symbols first, and then the Skolem
symbols are drawn. -/
structure Admits (sig : Signature) (c : Admission) (sig₁ sig' : Signature) : Prop where
  grows : sig.Grows sig₁
  skolems : sig₁.skolems = sig.skolems
  plain : sig₁.IsPlain
  names : ∀ n ∈ c.formula.names,
    sig₁.contains n = true ∧ n ∉ sig.skolems ∨ isReserved n = true
  draws : sig₁.Draws c.skolems sig'
  isSkolemized : c.IsSkolemized
  isKnown : c.IsKnown sig'

theorem isReserved_skolemName (k : Nat) : isReserved (skolemName k) = false := by
  simp [isReserved, skolemName]

/-- The counter of variables plays no part in drawing Skolem symbols. -/
theorem Draws.of_prepared (hf : f.Proper) {names : List String}
    (h : (f.prepared sig).2.Draws names sig') : sig.Draws names sig' := by
  obtain ⟨k, -, hk⟩ := (hf.standardized sig).signature
  rw [hk] at h
  exact ⟨⟨h.grows.find, h.grows.skolems, h.grows.fresh⟩, h.plain, h.skolems, h.nodup, h.fresh,
    h.known, h.numbered⟩

theorem normalize_admits {o : NormalFormOptions} {ds : List Derived} (hp : sig.IsPlain)
    (ho : o.check = true) (hw : f.WrittenWith o.arities)
    (h : sig.normalize o f = (.ok ds, sig')) :
    ∃ sig₁, sig.Admits ⟨f, o, ds, sig'.skolems.drop sig.skolems.length⟩ sig₁ sig' := by
  obtain ⟨sig₁, hc, hu⟩ := normalize_eq_ok ho h
  obtain ⟨rfl, rfl⟩ := normalizeUnchecked_eq_ok hu
  obtain ⟨hacc, -⟩ := check_accepts hc
  obtain ⟨hp₁, hknown⟩ := check_knows hp hw hc
  have hnnf := (hacc.proper.standardized sig₁).isNnf
  obtain ⟨names, hsk, hdraws⟩ := hnnf.exists_skolemizedBy [] .empty (f.prepared sig₁).2
  have hdraws : sig₁.Draws names (f.clauses sig₁).2 := hdraws.of_prepared hacc.proper
  have hnames : (f.clauses sig₁).2.skolems.drop sig.skolems.length = names := by
    rw [hdraws.skolems, hacc.skolems, List.drop_left]
  rw [hnames]
  refine ⟨sig₁, hacc.grows, hacc.skolems, hp₁, fun n hn => ?_, hdraws, ⟨sig₁, _, hsk, ?_⟩, ?_⟩
  · obtain ⟨a, ha, hn⟩ := List.mem_flatMap.1 hn
    obtain ⟨hpred, hsym⟩ := hknown a ha
    rcases List.mem_cons.1 hn with rfl | hn
    · cases hr : isReserved a.pred with
      | true => exact Or.inr rfl
      | false =>
        obtain ⟨hk, hno⟩ := hpred (by simp [hr])
        exact Or.inl ⟨hk.contains, hno⟩
    · obtain ⟨s, hs, rfl⟩ := List.mem_map.1 hn
      obtain ⟨hk, hno⟩ := hsym s hs
      exact Or.inl ⟨hk.contains, hno⟩
  · rw [List.map_map]
    exact List.map_id _
  · intro d hd l hl
    obtain ⟨c, hc, rfl⟩ := List.mem_map.1 hd
    constructor
    · intro hr
      obtain ⟨a, ha, he⟩ := (hacc.proper.hasClauses hacc.known).predicates c hc l hl
      have hpred : l.atom.pred = a.pred := congrArg Symbol.name he
      rw [hpred] at hr
      rw [he]
      exact ((hknown a ha).1 hr).1.mono hdraws.grows
    · have hatom := hacc.proper.atom_mem_skolemForm hacc.known hc hl
      refine hnnf.knows_skolemizeFrom (by simp [Term.symbols]) [] (fun b hb s hs => ?_) _ hatom
      obtain ⟨a, ha, -, hsub⟩ := hacc.proper.atoms_prepared hb
      exact ((hknown a ha).2 s (hsub s hs)).1.mono hacc.proper.grows_prepared

end Signature

namespace Admissions

/-- What is the case after any formulas. -/
structure Apart (h : Admissions) : Prop where
  plain : h.signature.IsPlain
  skolems : h.signature.skolems = h.accepted.flatMap Admission.skolems
  nodup : h.signature.skolems.Nodup
  known : ∀ n ∈ h.signature.skolems, h.signature.contains n = true
  numbered : ∀ n ∈ h.signature.skolems, ∃ k, n = Signature.skolemName k
  names : ∀ c ∈ h.accepted, ∀ n ∈ c.formula.names,
    h.signature.contains n = true ∧ n ∉ h.signature.skolems ∨ isReserved n = true
  isSkolemized : ∀ c ∈ h.accepted, c.IsSkolemized
  isKnown : ∀ c ∈ h.accepted, c.IsKnown h.signature

theorem apart_empty : Apart {} where
  plain n e he := by cases he
  skolems := rfl
  nodup := List.nodup_nil
  known := by simp
  numbered := by simp
  names := by simp
  isSkolemized := by simp
  isKnown := by simp

variable {h : Admissions} {c : Admission}

/-- Neither an older Skolem symbol nor a name from any formula so far is drawn. -/
theorem Apart.not_drawn (ha : h.Apart) (hc : h.signature.Admits c sig₁ sig') {n : String}
    (hn : n ∈ h.signature.skolems ∨ sig₁.contains n = true ∨ isReserved n = true) :
    n ∉ c.skolems := by
  intro hm
  have hnew := hc.draws.fresh n hm
  rcases hn with hn | hn | hn
  · have := hc.grows.contains (ha.known n hn)
    simp [Signature.contains, hnew] at this
  · simp [Signature.contains, hnew] at hn
  · obtain ⟨k, rfl⟩ := hc.draws.numbered n hm
    simp [Signature.isReserved_skolemName] at hn

/-- What one accepted formula keeps. -/
theorem Apart.admit (ha : h.Apart) (hc : h.signature.Admits c sig₁ sig') :
    Apart ⟨sig', h.accepted ++ [c]⟩ := by
  have hgrows := hc.grows.trans hc.draws.grows
  have hskolems : sig'.skolems = h.signature.skolems ++ c.skolems := by
    rw [hc.draws.skolems, hc.skolems]
  have hnames : ∀ n, (sig₁.contains n = true ∧ n ∉ h.signature.skolems ∨ isReserved n = true) →
      sig'.contains n = true ∧ n ∉ sig'.skolems ∨ isReserved n = true := by
    rintro n (⟨hn, hold⟩ | hn)
    · refine Or.inl ⟨hc.draws.grows.contains hn, ?_⟩
      rw [hskolems, List.mem_append, not_or]
      exact ⟨hold, ha.not_drawn hc (Or.inr (Or.inl hn))⟩
    · exact Or.inr hn
  constructor
  · exact hc.draws.plain hc.plain
  · simp [hskolems, ha.skolems]
  · rw [hskolems]
    refine List.nodup_append.2 ⟨ha.nodup, hc.draws.nodup, fun n hn m hm => ?_⟩
    rintro rfl
    exact ha.not_drawn hc (Or.inl hn) hm
  · intro n hn
    rcases List.mem_append.1 (hskolems ▸ hn) with hn | hn
    · exact hgrows.contains (ha.known n hn)
    · exact hc.draws.known n hn
  · intro n hn
    rcases List.mem_append.1 (hskolems ▸ hn) with hn | hn
    · exact ha.numbered n hn
    · exact hc.draws.numbered n hn
  · intro d hd n hn
    apply hnames
    rcases List.mem_append.1 hd with hd | hd
    · refine (ha.names d hd n hn).imp (fun hk => ⟨hc.grows.contains hk.1, hk.2⟩) id
    · rw [List.mem_singleton.1 hd] at hn
      exact hc.names n hn
  · intro d hd
    rcases List.mem_append.1 hd with hd | hd
    · exact ha.isSkolemized d hd
    · exact List.mem_singleton.1 hd ▸ hc.isSkolemized
  · intro d hd
    rcases List.mem_append.1 hd with hd | hd
    · intro e he l hl
      obtain ⟨hpred, hsym⟩ := ha.isKnown d hd e he l hl
      exact ⟨fun hr => (hpred hr).mono hgrows, fun s hs => (hsym s hs).mono hgrows⟩
    · exact List.mem_singleton.1 hd ▸ hc.isKnown

/-- What one formula keeps, accepted or not. -/
theorem Apart.next (ha : h.Apart) {o : NormalFormOptions} (ho : o.check = true)
    (hw : f.WrittenWith o.arities) : (h.next o f).Apart := by
  rw [Admissions.next]
  split
  · next ds sig' hn =>
    obtain ⟨sig₁, hc⟩ := Signature.normalize_admits ha.plain ho hw hn
    exact ha.admit hc
  · next hn =>
    obtain rfl := Signature.normalize_eq_error hn
    exact ha

theorem Apart.foldl {inputs : List (NormalFormOptions × Formula)} (ha : h.Apart)
    (hin : ∀ p ∈ inputs, p.1.check = true ∧ p.2.WrittenWith p.1.arities) :
    (inputs.foldl (fun h p => h.next p.1 p.2) h).Apart := by
  induction inputs generalizing h with
  | nil => exact ha
  | cons p inputs ih =>
    obtain ⟨ho, hw⟩ := hin p (List.mem_cons_self ..)
    exact ih (ha.next ho hw) fun q hq => hin q (List.mem_cons_of_mem _ hq)

/-- Skolem symbols never collide. Whatever formulas come in, each existential quantifier of those
that are accepted has a Skolem symbol of its own, no accepted formula uses any of these symbols,
and the symbols of all the clauses are in the table as they are used. -/
theorem skolems_apart {inputs : List (NormalFormOptions × Formula)}
    (hin : ∀ p ∈ inputs, p.1.check = true ∧ p.2.WrittenWith p.1.arities) :
    (∀ c ∈ (ofInputs inputs).accepted, c.IsSkolemized) ∧
      ((ofInputs inputs).accepted.flatMap Admission.skolems).Nodup ∧
      (∀ c ∈ (ofInputs inputs).accepted, ∀ d ∈ (ofInputs inputs).accepted,
        ∀ n ∈ c.skolems, n ∉ d.formula.names) ∧
      ∀ c ∈ (ofInputs inputs).accepted, c.IsKnown (ofInputs inputs).signature := by
  have ha : (ofInputs inputs).Apart := apart_empty.foldl hin
  refine ⟨ha.isSkolemized, ha.skolems ▸ ha.nodup, fun c hc d hd n hn hm => ?_, ha.isKnown⟩
  have hn : n ∈ (ofInputs inputs).signature.skolems :=
    ha.skolems ▸ List.mem_flatMap.2 ⟨c, hc, hn⟩
  rcases ha.names d hd n hm with ⟨-, hno⟩ | hr
  · exact hno hn
  · obtain ⟨k, rfl⟩ := ha.numbered n hn
    simp [Signature.isReserved_skolemName] at hr

/-- The first formula takes the name of the first Skolem symbol, and the third is refused because
it uses the second. The number of arguments of `even` is written as a truth value. -/
def namedLikeSkolems : List (NormalFormOptions × Formula) :=
  [({}, .atomic ⟨"less", [.const "sk1", .const "zero"]⟩),
    ({}, Signature.unbounded),
    ({}, .atomic ⟨"less", [.const "zero", .const "sk2"]⟩),
    ({ allowReserved := true },
      .iff (.ex (.var "x") (.atomic ⟨"less", [.var "x", .var "x"]⟩))
        (.ex (.var "y") (.atomic ⟨"$goal", [.var "y"]⟩))),
    ({ arities := [.bool true] }, .atomic ⟨"even", [.const "zero"]⟩)]

theorem skolems_apart_namedLikeSkolems :
    (∀ p ∈ namedLikeSkolems, p.1.check = true ∧ p.2.WrittenWith p.1.arities) ∧
      (ofInputs namedLikeSkolems).accepted.map Admission.skolems =
        [[], ["sk2"], ["sk3", "sk4"], []] ∧
      (∀ c ∈ (ofInputs namedLikeSkolems).accepted, ∀ d ∈ (ofInputs namedLikeSkolems).accepted,
        ∀ n ∈ c.skolems, n ∉ d.formula.names) ∧
      ∀ c ∈ (ofInputs namedLikeSkolems).accepted,
        c.IsKnown (ofInputs namedLikeSkolems).signature := by
  have hin : ∀ p ∈ namedLikeSkolems, p.1.check = true ∧ p.2.WrittenWith p.1.arities := by
    decide +kernel
  obtain ⟨-, -, hnames, hknown⟩ := skolems_apart hin
  exact ⟨hin, by decide +kernel, hnames, hknown⟩

end Admissions

end Elenchus

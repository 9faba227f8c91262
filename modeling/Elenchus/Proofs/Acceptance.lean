import Elenchus.Proofs.SkolemSymbols

/-! Which formulas the check lets pass: those whose symbols fit the table, in whatever order. -/

namespace Elenchus

variable {sig sig' : Signature} {f g : Formula} {allowReserved : Bool} {arities : List Item}

/-! ### Well-formed formulas -/

namespace Formula

/-- The quantifiers, each with those around it, the innermost first. -/
def quantifiers : (around : List Binder) → Formula → List (List Binder × Binder)
  | _, .atomic _ | _, .stray _ => []
  | bs, .not f => f.quantifiers bs
  | bs, .and f g | bs, .or f g | bs, .implies f g | bs, .iff f g =>
    f.quantifiers bs ++ g.quantifiers bs
  | bs, .all b f | bs, .ex b f => (bs, b) :: f.quantifiers (b :: bs)

/-- A symbol of the formula. Reserved predicates do not count where they are allowed. -/
inductive Occurs (f : Formula) (allowReserved : Bool) : SymbolKind → Symbol → Prop
  | predicate {a : Atom} (ha : a ∈ f.atoms) (hr : (allowReserved && isReserved a.pred) = false) :
      Occurs f allowReserved .predicate a.predicate
  | function {a : Atom} (ha : a ∈ f.atoms) {s : Symbol} (hs : s ∈ a.symbols) :
      Occurs f allowReserved .function s

/-- What is asked of a formula that comes to a table. -/
structure WellFormed (f : Formula) (sig : Signature) (allowReserved : Bool) : Prop where
  isFormula : f.firstStray = none
  quantifiers : ∀ q ∈ f.quantifiers [], ∃ x, q.2 = .var x ∧ .var x ∉ q.1
  notSkolem : ∀ n ∈ f.names, n ∉ sig.skolems
  notReserved : allowReserved = false → ∀ n ∈ f.names, isReserved n = false
  /-- Kinds and numbers of arguments that extend the table, fit every symbol, and make no bound
  variable the name of a function or constant. -/
  assignment : ∃ A : String → Option SymbolEntry,
    (∀ n e, sig.find? n = some e → A n = some e) ∧
      (∀ kind s, f.Occurs allowReserved kind s →
        ∃ e, A s.name = some e ∧ e.Fits ⟨kind, .int s.arity⟩) ∧
      ∀ q ∈ f.quantifiers [], ∀ x, q.2 = .var x →
        ∀ e, A x = some e → e.kind.same .function = false

theorem binderFault_eq_none_iff (path : List String) : f.binderFault path = none ↔
    f.firstStray = none ∧
      ∀ q ∈ f.quantifiers (path.map .var), ∃ x, q.2 = .var x ∧ .var x ∉ q.1 := by
  induction f generalizing path with
  | atomic a => simp [binderFault, firstStray, quantifiers]
  | not f ih => exact ih path
  | and f g ihf ihg | or f g ihf ihg | implies f g ihf ihg | iff f g ihf ihg =>
    simp only [binderFault, firstStray, quantifiers, Option.orElse_eq_none, ihf, ihg,
      List.forall_mem_append]
    tauto
  | all b f ih | ex b f ih =>
    cases b with
    | other i => simp [binderFault, firstStray, quantifiers]
    | var x =>
      have hx : .var x ∈ path.map Binder.var ↔ x ∈ path := by simp
      by_cases hmem : x ∈ path
      · simp [binderFault, firstStray, quantifiers, hmem]
      · have := ih (x :: path)
        simp_all [binderFault, firstStray, quantifiers]
  | stray i => simp [binderFault, firstStray]

theorem mem_boundNames_iff {x : String} (around : List Binder) :
    x ∈ f.boundNames ↔ ∃ q ∈ f.quantifiers around, q.2 = .var x := by
  induction f generalizing around with
  | atomic a | stray i => simp [boundNames, quantifiers]
  | not f ih => exact ih around
  | and f g ihf ihg | or f g ihf ihg | implies f g ihf ihg | iff f g ihf ihg =>
    simp only [boundNames, quantifiers, List.mem_append, ihf around, ihg around, or_and_right,
      exists_or]
  | all b f ih | ex b f ih =>
    cases b with
    | other i => simp [boundNames, quantifiers, ih (.other i :: around)]
    | var y => simp [boundNames, quantifiers, ih (.var y :: around), eq_comm]

/-- The occurrences that are recorded are those that count. -/
theorem WrittenWith.exists_occurs (h : f.WrittenWith arities) {w : SymbolUse}
    (hw : w ∈ f.uses allowReserved arities) :
    ∃ kind s, f.Occurs allowReserved kind s ∧ w.name = s.name ∧
      w.entry.Agrees ⟨kind, .int s.arity⟩ := by
  obtain ⟨hmem, hr⟩ := List.mem_filter.1 hw
  obtain ⟨u, hu, hname, hkind, harity⟩ := exists_of_mem_asWritten hmem
  have hagrees : w.entry.Agrees u.entry := ⟨hkind, h.int?_eq harity⟩
  obtain ⟨a, ha, hu⟩ := List.mem_flatMap.1 hu
  rcases List.mem_cons.1 hu with rfl | hu
  · refine ⟨_, _, .predicate ha ?_, hname, hagrees⟩
    rw [hname, hkind] at hr
    have hr : (!(allowReserved && isReserved a.pred &&
      SymbolKind.predicate.same .predicate)) = true := hr
    have hsame : SymbolKind.predicate.same .predicate = true := by
      simp [SymbolKind.same, SymbolKind.label, Item.same]
    rwa [hsame, Bool.and_true, Bool.not_eq_true'] at hr
  · obtain ⟨s, hs, rfl⟩ := List.mem_map.1 hu
    exact ⟨_, s, .function ha hs, hname, hagrees⟩

theorem WrittenWith.exists_use_of_occurs (h : f.WrittenWith arities) {kind : SymbolKind}
    {s : Symbol} (hs : f.Occurs allowReserved kind s) :
    ∃ w ∈ f.uses allowReserved arities, w.name = s.name ∧
      w.entry.Agrees ⟨kind, .int s.arity⟩ := by
  cases hs with
  | predicate ha hr => exact h.exists_use ha (List.mem_cons_self ..) fun _ => hr
  | function ha hs =>
    exact h.exists_use ha (List.mem_cons_of_mem _ (List.mem_map_of_mem hs)) (by rintro ⟨⟩)

theorem Occurs.mem_names {kind : SymbolKind} {s : Symbol} (h : f.Occurs allowReserved kind s) :
    s.name ∈ f.names := by
  cases h with
  | @predicate a ha hr => exact List.mem_flatMap.2 ⟨a, ha, List.mem_cons_self ..⟩
  | @function a ha s hs =>
    exact List.mem_flatMap.2 ⟨a, ha, List.mem_cons_of_mem _ (List.mem_map_of_mem hs)⟩

/-- Every name is that of a symbol that counts, or of a reserved predicate that is allowed. -/
theorem exists_occurs_of_mem_names {n : String} (h : n ∈ f.names) (allowReserved : Bool) :
    (∃ kind s, f.Occurs allowReserved kind s ∧ s.name = n) ∨
      allowReserved = true ∧ isReserved n = true := by
  obtain ⟨a, ha, hn⟩ := List.mem_flatMap.1 h
  rcases List.mem_cons.1 hn with rfl | hn
  · cases hr : allowReserved && isReserved a.pred with
    | true => exact Or.inr (by simpa using hr)
    | false => exact Or.inl ⟨_, _, .predicate ha hr, rfl⟩
  · obtain ⟨s, hs, rfl⟩ := List.mem_map.1 hn
    exact Or.inl ⟨_, s, .function ha hs, rfl⟩

end Formula

/-! ### Tables -/

namespace Signature

/-- The tables that an empty one can become, one call after the other. A check that fails leaves its
mark too, and a normal form is made by the last three. -/
inductive Reached : Signature → Prop
  | new : Reached {}
  | declare {sig sig' : Signature} {name : Item} {use : SymbolEntry} (h : Reached sig)
      (hd : sig.declareItem name use = some (.ok sig')) : Reached sig'
  | freshSkolem {sig : Signature} (h : Reached sig) (arity : Item) :
      Reached (sig.freshSkolem arity).2
  | freshVariable {sig : Signature} (h : Reached sig) (hint : Item) :
      Reached (sig.freshVariableLike hint).2
  | check {sig : Signature} (h : Reached sig) (allowReserved : Bool) (arities : List Item)
      (f : Formula) : Reached (sig.check allowReserved arities f).1
  | standardize {sig : Signature} (h : Reached sig) (f : Formula) : Reached (f.standardize sig).2
  | skolemize {sig : Signature} (h : Reached sig) (f : Formula) : Reached (f.skolemize sig).2

theorem skolems_declareItem {name : Item} {use : SymbolEntry}
    (h : sig.declareItem name use = some (.ok sig')) : sig'.skolems = sig.skolems := by
  rw [declareItem.eq_def] at h
  split at h
  · exact (declare_grows (Option.some.inj h)).2.1
  · split at h
    · split at h
      · cases h
        rfl
      · split at h
        · cases h
        · cases h
          rfl
    · cases h

theorem skolems_freshVariableLike (sig : Signature) (hint : Item) :
    (sig.freshVariableLike hint).2.skolems = sig.skolems := by
  cases hint <;> rfl

theorem skolems_record (sig : Signature) (allowReserved : Bool) (us : List SymbolUse) :
    (sig.record allowReserved us).1.skolems = sig.skolems := by
  induction us generalizing sig with
  | nil => rfl
  | cons u us ih =>
    rw [record]
    split
    · rfl
    · next sig₁ hu => exact (ih sig₁).trans (recordUse_grows hu).2.1

theorem skolems_check (sig : Signature) (allowReserved : Bool) (arities : List Item)
    (f : Formula) : (sig.check allowReserved arities f).1.skolems = sig.skolems := by
  have hrec := sig.skolems_record allowReserved (f.uses allowReserved arities)
  rw [check]
  split
  · rfl
  · split
    · next heq => rwa [heq] at hrec
    · next heq =>
      rw [heq] at hrec
      split <;> exact hrec

theorem skolems_standardizeFrom (f : Formula) (ρ : List (String × String)) (sig : Signature) :
    (f.standardizeFrom ρ sig).2.skolems = sig.skolems := by
  induction f generalizing ρ sig with
  | atomic a | stray i => rfl
  | not f ih => exact ih ρ sig
  | and f g ihf ihg | or f g ihf ihg | implies f g ihf ihg | iff f g ihf ihg =>
    exact (ihg ρ (f.standardizeFrom ρ sig).2).trans (ihf ρ sig)
  | all b f ih | ex b f ih => exact ih _ _

theorem mem_skolems_freshSkolem (sig : Signature) (arity : Item) :
    ∀ n ∈ (sig.freshSkolem arity).2.skolems, n ∈ sig.skolems ∨ ∃ k, n = skolemName k := by
  intro n hn
  rcases List.mem_append.1 hn with hn | hn
  · exact Or.inl hn
  · exact Or.inr ⟨_, List.mem_singleton.1 hn⟩

/-- Skolemization adds numbered names only, whatever the formula is. -/
theorem mem_skolems_skolemizeFrom (f : Formula) (scope : List Binder) (σ : Subst)
    (sig : Signature) :
    ∀ n ∈ (f.skolemizeFrom scope σ sig).2.skolems, n ∈ sig.skolems ∨ ∃ k, n = skolemName k := by
  induction f generalizing scope σ sig with
  | atomic a | implies f g _ _ | iff f g _ _ | stray i => exact fun n hn => Or.inl hn
  | not f _ => cases f <;> exact fun n hn => Or.inl hn
  | and f g ihf ihg | or f g ihf ihg =>
    intro n hn
    rcases ihg scope σ (f.skolemizeFrom scope σ sig).2 n hn with hn | hn
    · exact ihf scope σ sig n hn
    · exact Or.inr hn
  | all b f ih => exact ih (scope ++ [b]) σ sig
  | ex b f ih =>
    intro n hn
    have hn : n ∈ (sig.freshSkolem (.int scope.length)).2.skolems ∨ ∃ k, n = skolemName k := by
      cases b <;> exact ih _ _ _ n hn
    rcases hn with hn | hn
    · exact mem_skolems_freshSkolem sig _ n hn
    · exact Or.inr hn

theorem Reached.exists_skolemName (h : sig.Reached) :
    ∀ n ∈ sig.skolems, ∃ k, n = skolemName k := by
  induction h with
  | new => simp
  | declare _ hd ih => rwa [skolems_declareItem hd]
  | freshSkolem _ arity ih =>
    intro n hn
    rcases mem_skolems_freshSkolem _ arity n hn with hn | hn
    · exact ih n hn
    · exact hn
  | freshVariable _ hint ih => rwa [skolems_freshVariableLike]
  | check _ allowReserved arities f ih => rwa [skolems_check]
  | standardize _ f ih => rwa [Formula.standardize, skolems_standardizeFrom]
  | skolemize _ f ih =>
    intro n hn
    rcases mem_skolems_skolemizeFrom f [] .empty _ n hn with hn | hn
    · exact ih n hn
    · exact hn

/-- The second table is the first with the symbols of the formula that count. -/
structure ExtendedBy (sig : Signature) (f : Formula) (allowReserved : Bool)
    (sig' : Signature) : Prop where
  added : ∃ added, sig' = { sig with symbols := sig.symbols ++ added } ∧
    (added.map Prod.fst).Nodup ∧ ∀ p ∈ added, sig.find? p.1 = none ∧
      ∃ kind s, f.Occurs allowReserved kind s ∧ p.1 = s.name ∧ p.2.Agrees ⟨kind, .int s.arity⟩
  known : ∀ kind s, f.Occurs allowReserved kind s →
    ∃ e, sig'.find? s.name = some e ∧ e.Fits ⟨kind, .int s.arity⟩

theorem check_eq_none_iff : sig.check allowReserved arities f = (sig', none) ↔
    f.binderFault [] = none ∧
      sig.record allowReserved (f.uses allowReserved arities) = (sig', none) ∧
      sig'.clashes f.boundNames = [] := by
  rw [check]
  split
  · next hb => simp [hb]
  · next hb =>
    split
    · next hrec => simp [hrec]
    · next sig₁ hrec =>
      split
      · next hcl =>
        simp only [hb, hrec, Prod.mk.injEq, and_true, true_and]
        constructor
        · rintro rfl
          exact ⟨rfl, hcl⟩
        · exact fun h => h.1
      · next hcl =>
        simp only [hb, hrec, Prod.mk.injEq, and_true, true_and, reduceCtorEq, and_false, false_iff]
        rintro ⟨rfl, h⟩
        exact hcl h

theorem check_extends (hw : f.WrittenWith arities)
    (h : sig.check allowReserved arities f = (sig', none)) :
    sig.ExtendedBy f allowReserved sig' := by
  obtain ⟨-, hrec, -⟩ := check_eq_none_iff.1 h
  obtain ⟨added, rfl, hnodup, hadded⟩ := record_adds hrec
  refine ⟨⟨added, rfl, hnodup, fun p hp => ?_⟩, fun kind s hs => ?_⟩
  · obtain ⟨hnone, u, hu, rfl⟩ := hadded p hp
    exact ⟨hnone, hw.exists_occurs hu⟩
  · obtain ⟨w, hm, hname, hagrees⟩ := hw.exists_use_of_occurs hs
    obtain ⟨e, he, hfits⟩ := record_fits hw.isPlain hrec w hm
    exact ⟨e, hname ▸ he, (SymbolEntry.fits_congr hagrees (hw.isPlain w hm)).1 hfits⟩

/-- What passes is well-formed; the new table is the assignment. -/
theorem wellFormed_of_check (hsig : sig.Reached) (hw : f.WrittenWith arities)
    (h : sig.check allowReserved arities f = (sig', none)) : f.WellFormed sig allowReserved := by
  obtain ⟨hb, hrec, hcl⟩ := check_eq_none_iff.1 h
  obtain ⟨hgrows, -, hnames⟩ := record_grows hrec
  obtain ⟨hstray, hquant⟩ := (Formula.binderFault_eq_none_iff []).1 hb
  have hused : ∀ kind s, f.Occurs allowReserved kind s →
      s.name ∉ sig.skolems ∧ (isReserved s.name = true → allowReserved = true) := by
    intro kind s hs
    obtain ⟨w, hm, hname, -⟩ := hw.exists_use_of_occurs hs
    exact hname ▸ (hnames w hm).2
  refine ⟨hstray, hquant, fun n hn hsk => ?_, fun hr n hn => ?_, sig'.find?, hgrows.find,
    (check_extends hw h).known, fun q hq x hx => ?_⟩
  · rcases Formula.exists_occurs_of_mem_names hn allowReserved with ⟨kind, s, hs, rfl⟩ | ⟨-, hres⟩
    · exact (hused kind s hs).1 hsk
    · obtain ⟨k, rfl⟩ := hsig.exists_skolemName n hsk
      simp [isReserved_skolemName] at hres
  · rcases Formula.exists_occurs_of_mem_names hn allowReserved with ⟨kind, s, hs, rfl⟩ | ⟨ha, -⟩
    · have := (hused kind s hs).2
      simpa [hr] using this
    · simp [hr] at ha
  · exact clashes_eq_nil_iff.1 hcl x ((Formula.mem_boundNames_iff []).2 ⟨q, hq, hx⟩)

/-- What is well-formed passes: a name that clashes in the new table clashes in any assignment. -/
theorem exists_check_of_wellFormed (hw : f.WrittenWith arities)
    (h : f.WellFormed sig allowReserved) :
    ∃ sig', sig.check allowReserved arities f = (sig', none) := by
  obtain ⟨A, hA, hfits, hbound⟩ := h.assignment
  have hallows : sig.Allows A := fun n e he => ⟨e, hA n e he, fun _ _ hfit => hfit⟩
  have huses : ∀ u ∈ f.uses allowReserved arities, ∃ e, A u.name = some e ∧ e.Fits u.entry := by
    intro u hu
    obtain ⟨kind, s, hs, hname, hagrees⟩ := hw.exists_occurs hu
    obtain ⟨e, he, hfit⟩ := hfits kind s hs
    exact ⟨e, hname ▸ he, (SymbolEntry.fits_congr hagrees (hw.isPlain u hu)).2 hfit⟩
  have hnames : ∀ u ∈ f.uses allowReserved arities, u.name ∈ f.names := by
    intro u hu
    obtain ⟨kind, s, hs, hname, -⟩ := hw.exists_occurs hu
    exact hname ▸ hs.mem_names
  have hreserved : ∀ u ∈ f.uses allowReserved arities, isReserved u.name = true →
      allowReserved = true := by
    intro u hu hr
    cases allowReserved with
    | true => rfl
    | false => simp [h.notReserved rfl u.name (hnames u hu)] at hr
  obtain ⟨sig', hrec⟩ := hallows.exists_record hw.isPlain huses
    (fun u hu => h.notSkolem u.name (hnames u hu)) hreserved
  obtain ⟨added, rfl, -, hadded⟩ := record_adds hrec
  have hb : f.binderFault [] = none :=
    (Formula.binderFault_eq_none_iff []).2 ⟨h.isFormula, h.quantifiers⟩
  refine ⟨_, check_eq_none_iff.2 ⟨hb, hrec, clashes_eq_nil_iff.2 fun x hx e he => ?_⟩⟩
  obtain ⟨q, hq, hqx⟩ := (Formula.mem_boundNames_iff []).1 hx
  rcases find?_extended he with hold | ⟨-, hnew⟩
  · exact hbound q hq x hqx e (hA x e hold)
  · obtain ⟨-, u, hu, heq⟩ := hadded _ hnew
    cases heq
    obtain ⟨e', he', hfit⟩ := huses u hu
    rcases (hw.isPlain u hu).1 with hkind | hkind
    · simp [hkind, SymbolKind.same, SymbolKind.label, Item.same]
    · have hno := hbound q hq u.name hqx e' he'
      rw [← hkind, hfit.1] at hno
      cases hno

/-- The check refuses exactly what is not well-formed. What passes leaves the table with its symbols
and nothing else. -/
theorem check_exact (hsig : sig.Reached) (hw : f.WrittenWith arities) (allowReserved : Bool) :
    ((sig.check allowReserved arities f).2 = none ↔ f.WellFormed sig allowReserved) ∧
      (f.WellFormed sig allowReserved →
        sig.ExtendedBy f allowReserved (sig.check allowReserved arities f).1) ∧
      (¬ f.WellFormed sig allowReserved →
        ∃ e : Malformed, (sig.check allowReserved arities f).2 = some e) := by
  have hiff : (sig.check allowReserved arities f).2 = none ↔ f.WellFormed sig allowReserved := by
    constructor
    · intro h
      exact wellFormed_of_check hsig hw (Prod.ext rfl h)
    · intro h
      obtain ⟨sig', heq⟩ := exists_check_of_wellFormed hw h
      rw [heq]
  refine ⟨hiff, fun h => check_extends hw (Prod.ext rfl (hiff.2 h)), fun h => ?_⟩
  exact Option.ne_none_iff_exists'.1 fun hnone => h (hiff.1 hnone)

/-- Everybody has a parent whose origin is an answer for both. -/
def originOfParent : Formula :=
  .all (.var "x") (.ex (.var "y") (.and (.atomic ⟨"parent", [.var "y", .var "x"]⟩)
    (.atomic ⟨"$answer", [.app "origin" [.var "x"], .app "origin" [.var "y"]]⟩)))

/-- A constant far from the quantifier that binds its name. -/
def boundConstant : Formula :=
  .implies (.all (.var "x") (.atomic ⟨"parent", [.const "y", .var "x"]⟩))
    (.ex (.var "y") (.atomic ⟨"parent", [.var "y", .var "y"]⟩))

-- a number of arguments may have been written as a truth value, and an empty list tells nothing
theorem check_exact_originOfParent :
    ∃ sig : Signature, sig.Reached ∧ sig.skolems = ["sk1"] ∧
      originOfParent.WrittenWith [.int 2, .int 2, .bool true] ∧
      originOfParent.WellFormed sig true ∧
      sig.ExtendedBy originOfParent true
        (sig.check true [.int 2, .int 2, .bool true] originOfParent).1 ∧
      ¬ originOfParent.WellFormed sig false ∧ ¬ boundConstant.WellFormed sig false := by
  let sig : Signature :=
    ((({} : Signature).check false [] unbounded).1.freshSkolem (.int 1)).2
  have hsig : sig.Reached := (Reached.new.check false [] unbounded).freshSkolem (.int 1)
  have hwritten : originOfParent.WrittenWith [.int 2, .int 2, .bool true] := by decide
  have hwritten' : boundConstant.WrittenWith [] := by decide
  have hpass : (sig.check true [.int 2, .int 2, .bool true] originOfParent).2.isNone = true := by
    decide +kernel
  obtain ⟨hiff, hextends, -⟩ := check_exact hsig hwritten true
  have hwell := hiff.1 (Option.isNone_iff_eq_none.1 hpass)
  refine ⟨sig, hsig, by decide +kernel, hwritten, hwell, hextends hwell, fun h => ?_, fun h => ?_⟩
  · have hnone := (check_exact hsig hwritten false).1.2 h
    have hsome : (sig.check false [.int 2, .int 2, .bool true] originOfParent).2.isSome = true := by
      decide +kernel
    simp [hnone] at hsome
  · have hnone := (check_exact hsig hwritten' false).1.2 h
    have hsome : (sig.check false [] boundConstant).2.isSome = true := by decide +kernel
    simp [hnone] at hsome

end Signature

end Elenchus

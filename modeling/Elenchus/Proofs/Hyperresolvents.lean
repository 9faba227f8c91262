import Elenchus.Proofs.StoreHistories
import Elenchus.Proofs.UnitChoices
import Elenchus.Proofs.WorkingSets

/-! Hyperresolution finds each combination of a nucleus with units once, and nothing else. -/

namespace Elenchus

/-! ### Combinations -/

/-- A nucleus with units for its negative literals. -/
structure Combination where
  nucleus : Filed
  units : List Filed

namespace Combination

/-- The literals that are resolved. -/
def negatives (k : Combination) : List Literal :=
  k.nucleus.clause.literals.filter fun l => !l.positive

theorem negatives_eq_nil_iff {k : Combination} :
    k.negatives = [] ↔ k.nucleus.clause.literals.all Literal.positive = true := by
  simp [negatives, List.filter_eq_nil_iff]

/-- All negative literals can be resolved with the units at once, one with each in order. -/
def Unifiable (k : Combination) : Prop :=
  ∃ ms σ, k.nucleus.clause.Copies k.units ms ∧ Complementary σ k.negatives ms

/-- The clause has the positive literals of the nucleus under a most general unifier, and it names
its parents. -/
def Gives (k : Combination) (d : Derived) : Prop :=
  (∃ ms σ, k.nucleus.clause.Copies k.units ms ∧ IsMguOfAll σ k.negatives ms ∧
    d.clause = .ofList ((k.nucleus.clause.literals.filter Literal.positive).map
      (Literal.inst σ))) ∧
  Arena.parentsOf d = .int k.nucleus.id :: k.units.map fun u => .int u.id

theorem Gives.unifiable {k : Combination} {d : Derived} (h : k.Gives d) : k.Unifiable := by
  obtain ⟨⟨ms, σ, hcopies, hσ, -⟩, -⟩ := h
  exact ⟨ms, σ, hcopies, hσ.unifies⟩

end Combination

/-- The combinations of active clauses in which a clause takes part. -/
structure Store.Combines (st : Store) (given : Filed) (k : Combination) : Prop where
  nucleus : k.nucleus ∈ st.clauses
  negatives : k.negatives ≠ []
  units : ∀ u ∈ k.units, u ∈ st.clauses ∧ ∃ m, u.clause.literals = [m] ∧ m.positive = true
  given : given = k.nucleus ∨ given ∈ k.units
  unifiable : k.Unifiable

/-- The clauses are one for each combination with a property, in some order. -/
def OneForEach (P : Combination → Prop) (ds : List Derived) : Prop :=
  ∃ ks : List Combination, ks.Nodup ∧ (∀ k, k ∈ ks ↔ P k) ∧ List.Forall₂ Combination.Gives ks ds

section

variable {P Q : Combination → Prop} {ds es : List Derived}

theorem oneForEach_nil (hP : ∀ k, ¬ P k) : OneForEach P [] :=
  ⟨[], List.nodup_nil, fun k => by simp [hP k], .nil⟩

theorem OneForEach.congr (h : OneForEach P ds) (hPQ : ∀ k, P k ↔ Q k) : OneForEach Q ds := by
  obtain ⟨ks, hnodup, hks, hgives⟩ := h
  exact ⟨ks, hnodup, fun k => (hks k).trans (hPQ k), hgives⟩

theorem OneForEach.append (h : OneForEach P ds) (h' : OneForEach Q es)
    (hPQ : ∀ k, P k → ¬ Q k) : OneForEach (fun k => P k ∨ Q k) (ds ++ es) := by
  obtain ⟨ks, hnodup, hks, hgives⟩ := h
  obtain ⟨ks', hnodup', hks', hgives'⟩ := h'
  refine ⟨ks ++ ks', hnodup.append hnodup' fun k hk hk' => ?_, fun k => ?_,
    List.rel_append hgives hgives'⟩
  · exact hPQ k ((hks k).1 hk) ((hks' k).1 hk')
  · rw [List.mem_append, hks, hks']

end

namespace Inference

variable {r : Renamer} {θ : String → Term} {υ : Subst} {ls ms : List Literal} {c : Clause}
  {ss : List Satellite} {us units : List Filed} {n given : Filed} {st : Store}

/-! ### All combinations -/

theorem map_fst_negatives (c : Clause) :
    (negatives c).map Prod.fst = c.literals.filter fun l => !l.positive := by
  conv_rhs => rw [← List.zipIdx_map_fst 0 c.literals, List.filter_map]
  rfl

/-- A common unifier of copies gives each unit its own instance. -/
theorem compatible_of_copies (hcopies : c.Copies us ms) (hθ : Complementary θ ls ms) :
    Compatible (ls.map fun l => l.inst θ) us := by
  obtain ⟨hcopies, -⟩ := hcopies
  rw [Compatible, List.forall₂_map_left_iff]
  induction hθ generalizing us with
  | nil => cases hcopies; exact .nil
  | @cons l m ls ms heq _ ih =>
    cases hcopies with
    | cons hcopy hcopies =>
      obtain ⟨ρ, k, -, hk, rfl⟩ := hcopy
      exact .cons ⟨k, _, hk, (Literal.inst_inst k).symm.trans heq⟩ (ih hcopies)

theorem Chooses.gives (hn : r.Clear n.clause)
    (h : Chooses r .empty ((negatives n.clause).map Prod.fst) ss ms υ) :
    Combination.Gives ⟨n, ss.map Satellite.unit⟩
      (hyperresolvent n ((negatives n.clause).map Prod.snd) ss υ) := by
  refine ⟨⟨ms, υ.value, ⟨h.copyOf hn, h.apart⟩, ?_, ?_⟩, ?_⟩
  · rw [Combination.negatives, ← map_fst_negatives]
    exact h.isMguOfAll
  · simp only [hyperresolvent, funext (Literal.subst_eq_inst υ)]
  · simp [hyperresolvent, Arena.parentsOf]

/-- The choices that are found for the negative literals of a nucleus are the combinations that can
be unified. -/
theorem Enumerates.mem_iff {cs : List (List Satellite × Subst)} (hn : r.Clear n.clause)
    (h : Enumerates (∀ u ∈ ·, u ∈ units) r .empty ((negatives n.clause).map Prod.fst) cs) :
    (us ∈ cs.map fun c => c.1.map Satellite.unit) ↔
      (∀ u ∈ us, u ∈ units) ∧ Combination.Unifiable ⟨n, us⟩ := by
  constructor
  · intro hus
    obtain ⟨c, hc, rfl⟩ := List.mem_map.1 hus
    obtain ⟨ms, hms⟩ := h.chooses c hc
    exact ⟨h.allowed c hc, (hms.gives hn).unifiable⟩
  · rintro ⟨hus, ms, θ, hcopies, hθ⟩
    rw [Combination.negatives, ← map_fst_negatives] at hθ
    have hempty : ∀ l ∈ (negatives n.clause).map Prod.fst,
        (l.subst .empty).inst θ = l.inst θ := fun l _ => Literal.inst_subst .empty l
    apply h.complete us θ hus
    rw [List.map_congr_left hempty]
    exact compatible_of_copies hcopies hθ

/-- A choice of satellites uses the unit that is required. -/
def usesRequired (required : Option Nat) (ss : List Satellite) : Bool :=
  required.all fun id => ss.any fun s => s.unit.id == id

theorem usesRequired_iff {required : Option Nat} :
    usesRequired required ss = true ↔
      ∀ id ∈ required, ∃ u ∈ ss.map Satellite.unit, u.id = id := by
  cases required <;> simp [usesRequired]

theorem ofChoice_eq (n : Filed) (required : Option Nat) (ss : List Satellite) (σ : Subst) :
    ofChoice n required ss σ = if usesRequired required ss then
      [hyperresolvent n ((negatives n.clause).map Prod.snd) ss σ] else [] :=
  rfl

theorem flatMap_ofChoice (n : Filed) (required : Option Nat) (cs : List (List Satellite × Subst)) :
    (cs.flatMap fun c => ofChoice n required c.1 c.2) =
      (cs.filter fun c => usesRequired required c.1).map fun c =>
        hyperresolvent n ((negatives n.clause).map Prod.snd) c.1 c.2 := by
  induction cs with
  | nil => rfl
  | cons c cs ih =>
    rw [List.flatMap_cons, ih, List.filter_cons, ofChoice_eq]
    split <;> rfl

theorem combine_oneForEach (hunits : units.Nodup) (hn : r.Clear n.clause) (required : Option Nat) :
    OneForEach (fun k => k.nucleus = n ∧ (∀ u ∈ k.units, u ∈ units) ∧ k.Unifiable ∧
        ∀ id ∈ required, ∃ u ∈ k.units, u.id = id)
      (combine .never true n units required r).1 := by
  have hready : Ready r .empty ((negatives n.clause).map Prod.fst) := by
    refine ⟨Subst.idempotent_empty, Renamer.tidy_empty r, fun l hl => ?_⟩
    rw [map_fst_negatives] at hl
    exact hn l (List.mem_filter.1 hl).1
  obtain ⟨cs, q, -, hcs, hsearch⟩ := combineFrom_explores hunits hready
  rw [combine_eq, show combineFrom _ _ _ _ _ _ _ _ = _ from hsearch (ofChoice n required) []]
  simp only [List.nil_append, flatMap_ofChoice]
  refine ⟨(cs.filter fun c => usesRequired required c.1).map fun c =>
    ⟨n, c.1.map Satellite.unit⟩, ?_, fun k => ⟨fun hk => ?_, ?_⟩, ?_⟩
  · have hfilter := hcs.nodup.sublist
      ((List.filter_sublist (p := fun c => usesRequired required c.1)).map _)
    have hinj : Function.Injective fun us => (⟨n, us⟩ : Combination) :=
      fun us vs heq => (Combination.mk.inj heq).2
    simpa [List.map_map, Function.comp_def] using hfilter.map hinj
  · obtain ⟨c, hc, rfl⟩ := List.mem_map.1 hk
    obtain ⟨hc, hused⟩ := List.mem_filter.1 hc
    obtain ⟨hus, hunifiable⟩ := (hcs.mem_iff hn).1 (List.mem_map_of_mem hc)
    exact ⟨rfl, hus, hunifiable, usesRequired_iff.1 hused⟩
  · obtain ⟨n', us⟩ := k
    rintro ⟨rfl, hus, hunifiable, hused⟩
    obtain ⟨c, hc, rfl⟩ := List.mem_map.1 ((hcs.mem_iff hn).2 ⟨hus, hunifiable⟩)
    exact List.mem_map.2 ⟨c, List.mem_filter.2 ⟨hc, usesRequired_iff.2 hused⟩, rfl⟩
  · rw [List.forall₂_map_left_iff, List.forall₂_map_right_iff, List.forall₂_same]
    intro c hc
    obtain ⟨ms, hms⟩ := hcs.chooses c (List.mem_filter.1 hc).1
    exact hms.gives hn

/-! ### Hyperresolvents of a clause -/

theorem isPositiveUnit_iff {c : Clause} :
    isPositiveUnit c = true ↔ ∃ m, c.literals = [m] ∧ m.positive = true := by
  simp only [isPositiveUnit, Clause.isUnit, Clause.length, Bool.and_eq_true, beq_iff_eq,
    List.length_eq_one_iff, List.all_eq_true]
  constructor
  · rintro ⟨⟨m, hm⟩, hall⟩
    exact ⟨m, hm, hall m (by simp [hm])⟩
  · rintro ⟨m, hm, hpos⟩
    exact ⟨⟨m, hm⟩, by simp [hm, hpos]⟩

theorem combines_iff {k : Combination} (hn : k.nucleus ∈ st.clauses) (hk : k.negatives ≠ []) :
    st.Combines given k ↔ (∀ u ∈ k.units, u ∈ st.clauses.filter fun c => isPositiveUnit c.clause) ∧
      k.Unifiable ∧ (given = k.nucleus ∨ given ∈ k.units) := by
  simp only [List.mem_filter, isPositiveUnit_iff]
  constructor
  · rintro ⟨-, -, hunits, hgiven, hu⟩
    exact ⟨hunits, hu, hgiven⟩
  · rintro ⟨hunits, hu, hgiven⟩
    exact ⟨hn, hk, hunits, hgiven, hu⟩

theorem combineOne_oneForEach (hst : st.clauses.Nodup) (hg : given ∈ st.clauses)
    (hn : n ∈ st.clauses) (hclear : r.Clear n.clause) :
    OneForEach (fun k => k.nucleus = n ∧ st.Combines given k) (combineOne .never true given
      (st.clauses.filter fun c => isPositiveUnit c.clause) n r).1 := by
  have hunits : (st.clauses.filter fun c => isPositiveUnit c.clause).Nodup := hst.filter _
  have hid : ∀ u ∈ st.clauses, u.id = given.id → u = given := fun u hu =>
    (Store.files_of_mem_clauses hu).unique (Store.files_of_mem_clauses hg)
  rw [combineOne]
  split
  · next hall =>
    refine oneForEach_nil ?_
    rintro k ⟨hk, hc⟩
    exact hc.negatives (Combination.negatives_eq_nil_iff.2 (hk ▸ hall))
  · next hall =>
    have hiff : ∀ k : Combination, k.nucleus = n → (st.Combines given k ↔ _) := fun k hk =>
      combines_iff (hk ▸ hn) fun hnil => hall (hk ▸ Combination.negatives_eq_nil_iff.1 hnil)
    split
    · next hng =>
      obtain rfl := hid n hn hng
      refine (combine_oneForEach hunits hclear none).congr fun k => and_congr_right fun hk => ?_
      simp [hiff k hk, hk]
    · next hng =>
      -- the given clause is another one than the nucleus, so it has to be among the units
      have hne : ∀ k : Combination, k.nucleus = n → given ≠ k.nucleus :=
        fun k hk heq => hng (by rw [heq, hk])
      split
      · refine (combine_oneForEach hunits hclear (some given.id)).congr fun k =>
          and_congr_right fun hk => ?_
        rw [hiff k hk, or_iff_right (hne k hk)]
        refine and_congr_right fun hu => and_congr_right fun _ => ?_
        simp only [Option.mem_some_iff, forall_eq']
        constructor
        · rintro ⟨u, hku, heq⟩
          exact hid u (List.mem_filter.1 (hu u hku)).1 heq ▸ hku
        · exact fun hku => ⟨given, hku, rfl⟩
      · next hpos =>
        refine oneForEach_nil ?_
        rintro k ⟨hk, hc⟩
        have hgiven := hc.given.resolve_left (hne k hk)
        exact hpos (isPositiveUnit_iff.2 (hc.units given hgiven).2)

theorem combineEach_oneForEach {ns : List Filed} (hst : st.clauses.Nodup) (hg : given ∈ st.clauses)
    (hns : ns.Nodup) (hmem : ∀ n ∈ ns, n ∈ st.clauses) (hclear : ∀ n ∈ ns, r.Clear n.clause) :
    OneForEach (fun k => k.nucleus ∈ ns ∧ st.Combines given k) (combineEach .never true given
      (st.clauses.filter fun c => isPositiveUnit c.clause) ns r).1 := by
  induction ns generalizing r with
  | nil => exact oneForEach_nil fun k hk => List.not_mem_nil hk.1
  | cons n ns ih =>
    obtain ⟨hn, hns⟩ := List.nodup_cons.1 hns
    obtain ⟨hmem, hmems⟩ := List.forall_mem_cons.1 hmem
    obtain ⟨hclear, hclears⟩ := List.forall_mem_cons.1 hclear
    have hone := combineOne_oneForEach hst hg hmem hclear
    have hprec : r.Precedes (combineOne .never true given
        (st.clauses.filter fun c => isPositiveUnit c.clause) n r).2 :=
      combineOne_precedes given _ n r
    have hrest := ih hns hmems fun m hm => (hclears m hm).mono hprec
    rw [combineEach_cons, if_neg (by simp [Halt.never])]
    refine (hone.append hrest ?_).congr fun k => ?_
    · rintro k ⟨rfl, -⟩ ⟨hk, -⟩
      exact hn hk
    · rw [List.mem_cons, or_and_right]

theorem hyperresolvents_oneForEach (hst : st.clauses.Nodup) (hg : given ∈ st.clauses)
    (hclear : ∀ f ∈ st.clauses, r.Clear f.clause) :
    OneForEach (st.Combines given) (hyperresolvents true st given r).1 :=
  (combineEach_oneForEach hst hg hst (fun _ hn => hn) hclear).congr fun _ =>
    and_iff_right_of_imp Store.Combines.nucleus

/-- Hyperresolution with a given clause finds everything once: the clauses that it gives are the
hyperresolvents of the combinations of active clauses in which the given one takes part, one for
each. -/
theorem hyperresolvents_enumerate {a : Arena} {added : List Filed} (h : Store.Reached a added st)
    (hg : given ∈ st.clauses) (hclear : ∀ f ∈ st.clauses, r.Clear f.clause) :
    OneForEach (st.Combines given) (hyperresolvents true st given r).1 := by
  obtain ⟨hexact, -⟩ := h.exact
  exact hyperresolvents_oneForEach hexact.nodup_clauses hg hclear

theorem clear_of_isStandard (h : ∀ x ∈ c.vars, IsStandard x) : Renamer.Clear {} c :=
  fun l hl x hx => Renamer.avoids_of_isStandard rfl (h x (Clause.mem_vars.2 ⟨l, hl, hx⟩))

/-- Two edges make a path. -/
def twoEdges : Derived :=
  ⟨.ofList [.neg ⟨"edge", [.var "x1", .var "x2"]⟩, .neg ⟨"edge", [.var "x2", .var "x3"]⟩,
    .pos ⟨"path", [.var "x1", .var "x3"]⟩], none⟩

def edge (s t : Term) : Derived := ⟨.ofList [.pos ⟨"edge", [s, t]⟩], none⟩

/-- An edge from `a` to `b`, and edges from everything to itself. -/
def graph : Store :=
  ((((({} : Store).insert false twoEdges).2.insert false (edge (.const "a") (.const "b"))).2).insert
    false (edge (.var "x1") (.var "x1"))).2

def loop : Filed := ⟨2, edge (.var "x1") (.var "x1")⟩

/-- The loops come after the other edge, before it, or in both places; the first two give the same
clause. -/
theorem hyperresolvents_enumerate_loop :
    Store.Reached {} [⟨0, twoEdges⟩, ⟨1, edge (.const "a") (.const "b")⟩, loop] graph ∧
    loop ∈ graph.clauses ∧ (∀ f ∈ graph.clauses, Renamer.Clear {} f.clause) ∧
    OneForEach (graph.Combines loop) (hyperresolvents true graph loop {}).1 ∧
    ((hyperresolvents true graph loop {}).1.map fun d => d.clause.literals) =
      [[.pos ⟨"path", [.const "a", .const "b"]⟩], [.pos ⟨"path", [.const "a", .const "b"]⟩],
        [.pos ⟨"path", [.var "x_3", .var "x_3"]⟩]] := by
  have grow : ∀ {added : List Filed} {s : Store} {id : Nat} (d : Derived),
      (s.insert false d).1 = some id → Store.Reached {} added s →
      Store.Reached {} (added ++ [⟨id, d⟩]) (s.insert false d).2 :=
    fun d hid h => .insert h (Prod.ext hid rfl)
  have hreached := grow (edge (.var "x1") (.var "x1")) rfl
    (grow (edge (.const "a") (.const "b")) rfl (grow twoEdges rfl .start))
  have hloop : loop ∈ graph.clauses := List.mem_of_getElem? (i := 2) rfl
  have hclear : ∀ f ∈ graph.clauses, Renamer.Clear {} f.clause := by
    have hvars : ∀ f ∈ graph.clauses, ∀ x ∈ f.clause.vars, x ∈ ["x1", "x2", "x3"] := by decide
    refine fun f hf => clear_of_isStandard fun x hx => ?_
    obtain rfl | rfl | rfl : x = "x1" ∨ x = "x2" ∨ x = "x3" := by simpa using hvars f hf x hx
    · exact ⟨"", 1, by decide +kernel⟩
    · exact ⟨"", 2, by decide +kernel⟩
    · exact ⟨"", 3, by decide +kernel⟩
  exact ⟨hreached, hloop, hclear, hyperresolvents_enumerate hreached hloop hclear,
    by decide +kernel⟩

end Inference

/-! ### Searches -/

namespace Search

open Inference

variable {s s' : Search} {given : Filed} {strategy : Strategy} {seeds : List Derived}

theorem Reached.orderly_of_infers (h : Reached strategy seeds s) (hs : s.Infers given s') :
    s'.agenda.Orderly := by
  cases hs with
  | @intro selector i _ _ _ _ _ _ htake htautology _ =>
    obtain ⟨f, hf, he⟩ := Option.map_eq_some_iff.1 htake
    obtain ⟨rfl, rfl⟩ := Prod.mk.inj he
    have hbegun : Consistent []
        { s.begun with selector := some (selector.run s.start.agenda.waiting).2 } :=
      h.consistent.begun.congr rfl rfl rfl id
    exact hbegun.orderly_use hf htautology

theorem Infers.mem_usable (hs : s.Infers given s') (hg : s'.Files given) :
    given ∈ s'.agenda.usable.clauses := by
  cases hs with
  | intro =>
    refine (mem_clauses_makeUsable ?_).2 (.inl rfl)
    rwa [Files, makeUsable_arena] at hg

/-- The names that hyperresolution may hand out do not occur in usable clauses, in every round of
every search whose seeds have the variables of clause forms. So each round finds everything once. -/
theorem Reached.hyperresolvents_oneForEach (h : Reached strategy seeds s)
    (hseeds : ∀ d ∈ seeds, ∀ x ∈ d.clause.vars, IsStandard x) (hs : s.Infers given s') :
    OneForEach (s'.agenda.usable.Combines given) (hyperresolvents true s'.agenda.usable given
      (resolvents true s'.agenda.usable given s'.renamer).2).1 := by
  obtain ⟨hrests, hw⟩ := hs.rests
  have hgiven : s'.Files given := hrests.files.2 (h.descends.waiting given hw)
  have hdescends := h.descends.rests hrests
  have horderly := h.orderly_of_infers hs
  refine Inference.hyperresolvents_oneForEach horderly.indexed.nodup_clauses
    (hs.mem_usable hgiven) fun f hf => ?_
  have hclear := hdescends.clear (fun d hd => clear_of_isStandard (hseeds d hd))
    (Store.files_of_mem_clauses hf)
  exact hclear.mono (resolveEach_precedes given _ _)

end Search

end Elenchus

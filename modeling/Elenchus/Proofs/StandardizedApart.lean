import Elenchus.Proofs.Lineage

/-!
Partners and satellites are renamed apart, unless a seed has a variable like those handed out.
-/

namespace Elenchus

/-- No variable occurs in both literals. -/
def Literal.Apart (l m : Literal) : Prop := ∀ x ∈ l.vars, x ∉ m.vars

/-- A renamed copy has only names that were not handed out before. -/
theorem Clause.rename_apart {r : Renamer} {c : Clause} {l m : Literal}
    (hl : l ∈ (c.rename r).1) (hm : r.ClearLiteral m) : l.Apart m := by
  obtain ⟨k, hk, rfl⟩ := List.mem_map.1 hl
  intro x hx hxm
  have hfresh := (c.rename_renamed r).vars_literal
    (fun y hy => Clause.mem_vars.2 ⟨k, hk, hy⟩) hx
  exact hfresh.1 (hm x hxm)

namespace Inference

variable {halt : Halt} {check : Bool} {st : Store} {given partner nucleus u : Filed}
  {r r' : Renamer} {units : List Filed} {finish : List Satellite → Subst → List Derived}
  {l : Literal} {ls : List Literal} {σ : Subst} {chosen chosen' : List Satellite}

/-! ### Where clauses are renamed -/

/-- Resolution renames `partner` to resolve it with `given` while the renamer stands at `r'`, where
the meetings before this one have left it. -/
def RenamesPartner (halt : Halt) (check : Bool) (st : Store) (given : Filed) (r : Renamer)
    (partner : Filed) (r' : Renamer) : Prop :=
  ∃ before i j after, meetings st given = before ++ (i, partner, j) :: after ∧
    r' = (resolveEach halt check given before r).2

/-- The literal `l` is tried with the unit `u` while the renamer stands at `r'`, where the units
before `u` have left it. -/
structure Tries (halt : Halt) (check : Bool) (l : Literal) (σ : Subst)
    (next : Subst → Satellite → Renamer → List Derived × Renamer) (units : List Filed)
    (r : Renamer) (u : Filed) (r' : Renamer) : Prop where
  position : ∃ before after, units = before ++ u :: after ∧
    r' = (tryUnits halt check l σ next before r).2
  meets : ∃ m, u.clause.literals = [m] ∧ m.key = l.oppositeKey

/-- On the way through the negative literals `ls`, with the satellites `chosen` so far, the unit `u`
is renamed as one more satellite after `chosen'` while the renamer stands at `r'`. -/
inductive RenamesUnit (halt : Halt) (check : Bool) (units : List Filed)
    (finish : List Satellite → Subst → List Derived) :
    (ls : List Literal) → Subst → (chosen : List Satellite) → Renamer →
      (chosen' : List Satellite) → (u : Filed) → Renamer → Prop
  | here {l : Literal} {ls : List Literal} {σ : Subst} {chosen : List Satellite} {r r' : Renamer}
      {u : Filed}
      (h : Tries halt check l σ
        (fun τ s r => combineFrom halt check units finish ls τ (chosen ++ [s]) r) units r u r') :
      RenamesUnit halt check units finish (l :: ls) σ chosen r chosen u r'
  | later {l m : Literal} {ls : List Literal} {σ τ : Subst} {chosen chosen' : List Satellite}
      {r q r' : Renamer} {u v : Filed}
      (h : Tries halt check l σ
        (fun τ s r => combineFrom halt check units finish ls τ (chosen ++ [s]) r) units r u q)
      (hm : u.clause.literals = [m])
      (hτ : Subst.unifyOpposite check σ l (m.subst (u.clause.rename q).2.1) = some τ)
      (hrest : RenamesUnit halt check units finish ls τ
        (chosen ++ [⟨u, (u.clause.rename q).2.1⟩]) (u.clause.rename q).2.2 chosen' v r') :
      RenamesUnit halt check units finish (l :: ls) σ chosen r chosen' v r'

/-- The negative literals of a clause. -/
def negatives (c : Clause) : List (Literal × Nat) :=
  c.literals.zipIdx.filter fun p => !p.1.positive

/-- The hyperresolvent of a complete choice of satellites, if it uses the unit that is required. -/
def ofChoice (nucleus : Filed) (required : Option Nat) (chosen : List Satellite) (σ : Subst) :
    List Derived :=
  if required.all fun id => chosen.any fun s => s.unit.id == id then
    [hyperresolvent nucleus ((negatives nucleus.clause).map Prod.snd) chosen σ]
  else []

/-- A nucleus is combined with units in just this way, from its first negative literal on. -/
theorem combine_eq (nucleus : Filed) (units : List Filed) (required : Option Nat) (r : Renamer) :
    combine halt check nucleus units required r =
      combineFrom halt check units (ofChoice nucleus required)
        ((negatives nucleus.clause).map Prod.fst) .empty [] r :=
  rfl

/-- Hyperresolution renames `u` as a satellite of `nucleus`, after the satellites `chosen`, while
the renamer stands at `r'`. The nuclei before this one have left it where the choice begins, and the
given clause is the nucleus or a unit that is required. -/
def RenamesSatellite (halt : Halt) (check : Bool) (st : Store) (given : Filed) (r : Renamer)
    (nucleus : Filed) (chosen : List Satellite) (u : Filed) (r' : Renamer) : Prop :=
  ∃ before after required, st.clauses = before ++ nucleus :: after ∧
    (required = none ∧ nucleus.id = given.id ∨
      required = some given.id ∧ isPositiveUnit given.clause = true) ∧
    RenamesUnit halt check (st.clauses.filter fun c => isPositiveUnit c.clause)
      (ofChoice nucleus required) ((negatives nucleus.clause).map Prod.fst) .empty []
      (combineEach halt check given (st.clauses.filter fun c => isPositiveUnit c.clause) before r).2
      chosen u r'

/-! ### Names at these places -/

/-- No variable of the renamed satellite may still be handed out. -/
def Satellite.ClearAt (r : Renamer) (s : Satellite) : Prop :=
  ∀ m ∈ s.unit.clause.literals, r.ClearLiteral (m.subst s.renamed)

theorem Tries.precedes
    (h : Tries halt check l σ
      (fun τ s r => combineFrom halt check units finish ls τ (chosen ++ [s]) r) units r u r') :
    r.Precedes r' := by
  obtain ⟨before, after, -, rfl⟩ := h.position
  exact tryUnits_precedes (fun τ s r => combineFrom_precedes ls τ (chosen ++ [s]) r) before r

/-- The satellites chosen before have names that the renamer has handed out before. -/
theorem RenamesUnit.clear
    (h : RenamesUnit halt check units finish ls σ chosen r chosen' u r')
    (hchosen : ∀ s ∈ chosen, s.ClearAt r) :
    r.Precedes r' ∧ ∀ s ∈ chosen', s.ClearAt r' := by
  induction h with
  | here h =>
    refine ⟨h.precedes, fun s hs m hm => ?_⟩
    exact (hchosen s hs m hm).mono h.precedes
  | @later l m ls σ τ chosen chosen' r q r' u v h hm hτ hrest ih =>
    have hcopied := u.clause.rename_precedes q
    have hsofar := h.precedes.trans hcopied
    obtain ⟨hprec, hclear⟩ := ih fun s hs n hn => by
      rcases List.mem_append.1 hs with hs | hs
      · exact (hchosen s hs n hn).mono hsofar
      · obtain rfl := List.mem_singleton.1 hs
        exact u.clause.clear_rename q hn
    exact ⟨hsofar.trans hprec, hclear⟩

theorem RenamesPartner.apart (h : RenamesPartner halt check st given r partner r')
    (hg : r.Clear given.clause) :
    ∀ l ∈ (partner.clause.rename r').1, ∀ m ∈ given.clause.literals, l.Apart m := by
  obtain ⟨before, i, j, after, -, rfl⟩ := h
  have hprec : r.Precedes (resolveEach halt check given before r).2 :=
    resolveEach_precedes given before r
  intro l hl m hm
  exact Clause.rename_apart hl ((hg m hm).mono hprec)

theorem RenamesSatellite.apart (h : RenamesSatellite halt check st given r nucleus chosen u r')
    (hn : r.Clear nucleus.clause) :
    ∀ l ∈ (u.clause.rename r').1, (∀ m ∈ nucleus.clause.literals, l.Apart m) ∧
      ∀ s ∈ chosen, ∀ m ∈ s.unit.clause.literals, l.Apart (m.subst s.renamed) := by
  obtain ⟨before, after, required, -, -, h⟩ := h
  have hnuclei : r.Precedes (combineEach halt check given
      (st.clauses.filter fun c => isPositiveUnit c.clause) before r).2 :=
    combineEach_precedes given _ before r
  obtain ⟨hunits, hclear⟩ := h.clear (by simp)
  have hprec := hnuclei.trans hunits
  intro l hl
  refine ⟨fun m hm => ?_, fun s hs m hm => ?_⟩
  · exact Clause.rename_apart hl ((hn m hm).mono hprec)
  · exact Clause.rename_apart hl (hclear s hs m hm)

end Inference

/-! ### Searches -/

namespace Search

open Inference

variable {s s' : Search} {given : Filed} {strategy : Strategy} {seeds : List Derived}

/-- Resolution with `given` renames `partner` while the renamer stands at `r`. -/
def RenamesPartner (s : Search) (halt : Halt) (given partner : Filed) (r : Renamer) : Prop :=
  Inference.RenamesPartner halt s.strategy.occursCheck s.agenda.usable given s.renamer partner r

/-- Hyperresolution, which comes after resolution, renames `u` as a satellite of `nucleus` while the
renamer stands at `r`. -/
def RenamesSatellite (s : Search) (halt : Halt) (given nucleus : Filed) (chosen : List Satellite)
    (u : Filed) (r : Renamer) : Prop :=
  Inference.RenamesSatellite halt s.strategy.occursCheck s.agenda.usable given
    (resolventsUpTo halt s.strategy.occursCheck s.agenda.usable given s.renamer).2 nucleus chosen
    u r

/-- Parents are renamed apart, in every round of every search whose seeds have no variable of the
form that renaming gives. `halt` covers rounds that break off because a depth cannot be told. -/
theorem Reached.renames_apart (h : Reached strategy seeds s)
    (hseeds : ∀ d ∈ seeds, Renamer.Clear {} d.clause) (hs : s.Infers given s') (halt : Halt) :
    (∀ partner r, s'.RenamesPartner halt given partner r →
      ∀ l ∈ (partner.clause.rename r).1, ∀ m ∈ given.clause.literals, l.Apart m) ∧
    ∀ nucleus chosen u r, s'.RenamesSatellite halt given nucleus chosen u r →
      ∀ l ∈ (u.clause.rename r).1, (∀ m ∈ nucleus.clause.literals, l.Apart m) ∧
        ∀ t ∈ chosen, ∀ m ∈ t.unit.clause.literals, l.Apart (m.subst t.renamed) := by
  obtain ⟨hrests, hw⟩ := hs.rests
  have hgiven : s'.Files given := hrests.files.2 (h.descends.waiting given hw)
  have hdescends := h.descends.rests hrests
  refine ⟨fun partner r hp => ?_, fun nucleus chosen u r hu => ?_⟩
  · exact hp.apart (hdescends.clear hseeds hgiven)
  · have hprec : s'.renamer.Precedes (resolventsUpTo halt s'.strategy.occursCheck
        s'.agenda.usable given s'.renamer).2 := resolveEach_precedes given _ _
    have hmem : nucleus ∈ s'.agenda.usable.clauses := by
      obtain ⟨before, after, -, hclauses, -⟩ := hu
      simp [hclauses]
    have hnucleus := hdescends.clear hseeds (Store.files_of_mem_clauses hmem)
    exact RenamesSatellite.apart hu (hnucleus.mono hprec)

/-- Everything is above the ground. -/
def ground (x : String) : Derived :=
  ⟨.ofList [.pos ⟨"above", [.var x, .const "ground"]⟩], none⟩

/-- Nothing below the sky is above the ground. -/
def between (x : String) : Derived :=
  ⟨.ofList [.neg ⟨"above", [.const "sky", .var x]⟩,
    .neg ⟨"above", [.var x, .const "ground"]⟩], none⟩

/-- The search with the seeds `ds` after its first round. -/
def afterRound (ds : List Derived) : Search := (({} : Search).seedAll ds).step

theorem reached_afterRound (ds : List Derived) : Reached {} ds (afterRound ds) := by
  have hcreate : Reached {} [] ({} : Search) := .create {} (some ⟨.smallest, 0, 0⟩) {}
  exact .step (.seed hcreate rfl)

/-- The same search in its second round, when the rules are applied to the second seed. -/
def inRound (ds : List Derived) (given : Filed) : Search :=
  ((afterRound ds).select ⟨.smallest, 0, 1⟩ given
    { usable := (afterRound ds).agenda.usable, waiting := [] }).makeUsable given

theorem clear_x1 {d : Derived} (h : ∀ x ∈ d.clause.vars, x = "x1") : Renamer.Clear {} d.clause := by
  intro l hl x hx
  obtain rfl := h x (Clause.mem_vars.2 ⟨l, hl, hx⟩)
  exact Renamer.avoids_of_isStandard rfl ⟨"", 1, by decide +kernel⟩

/-- The second satellite of the second seed is the first seed once more, in its fourth copy. -/
theorem renamesSatellite_between :
    (inRound [ground "x1", between "x1"] ⟨1, between "x1"⟩).RenamesSatellite .never
      ⟨1, between "x1"⟩ ⟨1, between "x1"⟩
      [⟨⟨0, ground "x1"⟩, ((ground "x1").clause.rename { counter := 2 }).2.1⟩]
      ⟨0, ground "x1"⟩ ((ground "x1").clause.rename { counter := 2 }).2.2 := by
  refine ⟨[⟨0, ground "x1"⟩], [], none, rfl, .inl ⟨rfl, rfl⟩, ?_⟩
  refine .later (u := ⟨0, ground "x1"⟩) (q := { counter := 2 })
    (τ := ⟨[("x_3", .const "sky"), ("x1", .const "ground")], by decide⟩)
    ⟨⟨[], [], rfl, ?_⟩, _, rfl, rfl⟩ rfl ?_ (.here ⟨⟨[], [], rfl, rfl⟩, _, rfl, rfl⟩)
  · decide +kernel
  · decide +kernel

theorem Reached.renames_apart_between :
    Reached {} [ground "x1", between "x1"] (afterRound [ground "x1", between "x1"]) ∧
    (∀ d ∈ [ground "x1", between "x1"], Renamer.Clear {} d.clause) ∧
    (afterRound [ground "x1", between "x1"]).Infers ⟨1, between "x1"⟩
      (inRound [ground "x1", between "x1"] ⟨1, between "x1"⟩) ∧
    ∀ l ∈ ((ground "x1").clause.rename ((ground "x1").clause.rename { counter := 2 }).2.2).1,
      (∀ m ∈ (between "x1").clause.literals, l.Apart m) ∧
      ∀ m ∈ (ground "x1").clause.literals,
        l.Apart (m.subst ((ground "x1").clause.rename { counter := 2 }).2.1) := by
  have hreached := reached_afterRound [ground "x1", between "x1"]
  have hclear : ∀ d ∈ [ground "x1", between "x1"], Renamer.Clear {} d.clause := by
    simp only [List.forall_mem_cons]
    exact ⟨clear_x1 (by decide), clear_x1 (by decide), nofun⟩
  have hinfers : (afterRound [ground "x1", between "x1"]).Infers ⟨1, between "x1"⟩
      (inRound [ground "x1", between "x1"] ⟨1, between "x1"⟩) :=
    .intro (i := 0) rfl rfl rfl rfl rfl (by decide) (by decide)
  refine ⟨hreached, hclear, hinfers, fun l hl => ?_⟩
  have h := (hreached.renames_apart hclear hinfers .never).2 _ _ _ _ renamesSatellite_between l hl
  exact ⟨h.1, h.2 _ (List.mem_singleton_self _)⟩

/-! ### Seeds with the names of renamed variables -/

/-- The sky is above nothing. -/
def sky (x : String) : Derived := ⟨.ofList [.neg ⟨"above", [.const "sky", .var x]⟩], none⟩

theorem not_satisfies_ground_sky {α : Type} (M : Structure α) (x : String) :
    ¬ ∀ d ∈ [ground x, sky x], M.Satisfies d.clause := by
  intro hM
  obtain ⟨l, hl, hyes⟩ := hM (ground x) (by simp) fun _ => M.fn "sky" []
  obtain ⟨m, hm, hno⟩ := hM (sky x) (by simp) fun _ => M.fn "ground" []
  obtain rfl := List.mem_singleton.1 hl
  obtain rfl := List.mem_singleton.1 hm
  have habove : M.rel "above" [M.fn "sky" [], M.fn "ground" []] := hyes.1 rfl
  exact Bool.false_ne_true (hno.2 habove)

/-- The first copy of a variable `x…` is named `x_1`. Where both seeds have that variable already,
the copy is not apart, the two do not unify, and the search ends without the refutation. -/
theorem renamesPartner_ground_sky :
    Reached {} [ground "x_1", sky "x_1"] (afterRound [ground "x_1", sky "x_1"]) ∧
    (afterRound [ground "x_1", sky "x_1"]).Infers ⟨1, sky "x_1"⟩
      (inRound [ground "x_1", sky "x_1"] ⟨1, sky "x_1"⟩) ∧
    (inRound [ground "x_1", sky "x_1"] ⟨1, sky "x_1"⟩).RenamesPartner .never ⟨1, sky "x_1"⟩
      ⟨0, ground "x_1"⟩ {} ∧
    (∃ l ∈ ((ground "x_1").clause.rename {}).1, ∃ m ∈ (sky "x_1").clause.literals, ¬ l.Apart m) ∧
    (afterRound [ground "x_1", sky "x_1"]).step.step.status = .saturated ∧
    ∀ {α : Type} (M : Structure α), ¬ ∀ d ∈ [ground "x_1", sky "x_1"], M.Satisfies d.clause := by
  have hcopy : ((ground "x_1").clause.rename {}).1 = (ground "x_1").clause.literals := by
    decide +kernel
  refine ⟨reached_afterRound _, .intro (i := 0) rfl rfl rfl rfl rfl (by decide) (by decide),
    ⟨[], 0, 0, [], rfl, rfl⟩, ?_, by decide +kernel, fun M => not_satisfies_ground_sky M "x_1"⟩
  rw [hcopy]
  refine ⟨_, List.mem_singleton_self _, _, List.mem_singleton_self _, fun h => ?_⟩
  exact h "x_1" (by decide) (by decide)

end Search

end Elenchus

import Elenchus.Proofs.SearchHistory

/-! Everything that a search files follows from its seeds, whatever their variables are called. -/

namespace Elenchus

universe u

variable {D : Type u} {M : Structure D} {v : String → D}

namespace Inference

variable {r : Renamer} {d : Derived} {c u given partner : Filed} {halt : Halt} {l m : Literal}
  {σ τ ρ : Subst} {i : Nat}

/-! ### Resolution -/

theorem resolve_satisfies {j : Nat} (hg : M.Satisfies given.clause)
    (hp : M.Satisfies partner.clause)
    (h : (resolve true given partner i j r).1 = some (some d)) : M.Satisfies d.clause := by
  have hinf := resolve_inferred h
  apply hinf.sound
  intro p hmem
  rcases List.mem_cons.1 hmem with rfl | hmem
  · exact hg
  · exact List.mem_singleton.1 hmem ▸ hp

theorem resolveEach_satisfies {ms : List (Nat × Filed × Nat)} (hg : M.Satisfies given.clause)
    (hms : ∀ x ∈ ms, M.Satisfies x.2.1.clause)
    (hd : d ∈ (resolveEach halt true given ms r).1) : M.Satisfies d.clause := by
  induction ms generalizing r with
  | nil => simp [resolveEach] at hd
  | cons x ms ih =>
    obtain ⟨i, partner, j⟩ := x
    have hrest : ∀ x ∈ ms, M.Satisfies x.2.1.clause := fun x hx => hms x (List.mem_cons_of_mem _ hx)
    rw [resolveEach] at hd
    split at hd
    · next e r₁ heq =>
      have he : (resolve true given partner i j r).1 = some (some e) := by rw [heq]
      have hsat : M.Satisfies e.clause := resolve_satisfies hg (hms _ (List.mem_cons_self ..)) he
      split at hd
      · exact List.mem_singleton.1 hd ▸ hsat
      · rcases List.mem_cons.1 hd with rfl | hd
        · exact hsat
        · exact ih hrest hd
    · exact ih hrest hd

/-! ### Hyperresolution -/

/-- Under `σ` none of the literals is ever true. -/
def Refuted (M : Structure D) (σ : Subst) (ls : List Literal) : Prop :=
  ∀ l ∈ ls, ∀ v, ¬ (l.subst σ).Holds M v

/-- A unit that is true refutes whatever its copy is the complement of, and what was refuted
before stays refuted under the extended substitution. -/
theorem Refuted.snoc {done : List Literal} (hσ : σ.Idempotent) (h : Refuted M σ done)
    (hu : M.Satisfies u.clause) (hm : u.clause.literals = [m])
    (hτ : Subst.unifyOpposite true σ l (m.subst ρ) = some τ) :
    τ.Idempotent ∧ Refuted M τ (done ++ [l]) := by
  obtain ⟨hs, hun⟩ := Subst.unifyOpposite_eq_some hτ
  have hsolves := Subst.unifyAtoms_solves hσ hun
  refine ⟨hsolves.idempotent, ?_⟩
  intro k hk v hv
  rcases List.mem_append.1 hk with hk | hk
  · apply h k hk fun x => (τ.value x).eval M.fn v
    rwa [← Literal.holds_subst, hsolves.literal_subst]
  · obtain rfl := List.mem_singleton.1 hk
    obtain ⟨n, hn, hv'⟩ := hu fun x => ((ρ.value x).subst τ).eval M.fn v
    obtain rfl : n = m := by simpa [hm] using hn
    have hcopy : ((n.subst ρ).subst τ).Holds M v := by
      rw [Literal.holds_subst, Literal.holds_subst]
      simpa only [Term.eval_subst] using hv'
    rw [subst_eq_negate hs hsolves.atom_eq] at hcopy
    exact Literal.holds_negate.1 hcopy hv

theorem tryUnits_satisfies {next : Subst → Satellite → Renamer → List Derived × Renamer}
    {us : List Filed} {done : List Literal} (hσ : σ.Idempotent) (h : Refuted M σ done)
    (hus : ∀ u ∈ us, M.Satisfies u.clause)
    (hnext : ∀ τ s r, τ.Idempotent → Refuted M τ (done ++ [l]) →
      ∀ d ∈ (next τ s r).1, M.Satisfies d.clause)
    (hd : d ∈ (tryUnits halt true l σ next us r).1) : M.Satisfies d.clause := by
  induction us generalizing r with
  | nil => simp [tryUnits] at hd
  | cons u us ih =>
    have hrest : ∀ u ∈ us, M.Satisfies u.clause := fun w hw => hus w (List.mem_cons_of_mem _ hw)
    rw [tryUnits] at hd
    split at hd
    · next m hm =>
      split at hd
      · dsimp only at hd
        split at hd
        · next τ hτ =>
          obtain ⟨hidem, href⟩ := h.snoc hσ (hus u (List.mem_cons_self ..)) hm hτ
          have hone := hnext τ ⟨u, (u.clause.rename r).2.1⟩ (u.clause.rename r).2.2 hidem href
          split at hd
          · exact hone d hd
          · rcases List.mem_append.1 hd with hd | hd
            · exact hone d hd
            · exact ih hrest hd
        · exact ih hrest hd
      · exact ih hrest hd
    · exact ih hrest hd

theorem combineFrom_satisfies {finish : List Satellite → Subst → List Derived} {units : List Filed}
    {done ls : List Literal} {chosen : List Satellite} (hσ : σ.Idempotent)
    (h : Refuted M σ done) (hunits : ∀ u ∈ units, M.Satisfies u.clause)
    (hfinish : ∀ chosen τ, Refuted M τ (done ++ ls) →
      ∀ d ∈ finish chosen τ, M.Satisfies d.clause)
    (hd : d ∈ (combineFrom halt true units finish ls σ chosen r).1) : M.Satisfies d.clause := by
  induction ls generalizing σ chosen done r d with
  | nil =>
    rw [List.append_nil] at hfinish
    exact hfinish chosen σ h d hd
  | cons l ls ih =>
    refine tryUnits_satisfies hσ h hunits (fun τ s r hτ href e he => ?_) hd
    refine ih hτ href (fun chosen υ hυ => ?_) he
    rw [List.append_assoc] at hυ
    exact hfinish chosen υ hυ

/-- If all negative literals of a true nucleus are refuted, a positive one is true. -/
theorem hyperresolvent_satisfies {nucleus : Filed} {negatives : List Nat} {chosen : List Satellite}
    (hn : M.Satisfies nucleus.clause)
    (h : Refuted M σ
      ((nucleus.clause.literals.zipIdx.filter fun p => !p.1.positive).map Prod.fst)) :
    M.Satisfies (hyperresolvent nucleus negatives chosen σ).clause := by
  intro v
  obtain ⟨k, l, hk, hv⟩ := hn.exists_position (v := v) σ
  have hpos : l.positive = true := by
    by_contra hneg
    apply h l _ v hv
    have hmem : (l, k) ∈ nucleus.clause.literals.zipIdx := List.mk_mem_zipIdx_iff_getElem?.2 hk
    exact List.mem_map.2 ⟨(l, k), List.mem_filter.2 ⟨hmem, by simpa using hneg⟩, rfl⟩
  have hmem : l ∈ nucleus.clause.literals.filter Literal.positive :=
    List.mem_filter.2 ⟨List.mem_of_getElem? hk, hpos⟩
  exact ⟨l.subst σ, Clause.mem_ofList.2 (List.mem_map_of_mem hmem), hv⟩

theorem combine_satisfies {nucleus : Filed} {units : List Filed} {required : Option Nat}
    (hn : M.Satisfies nucleus.clause) (hunits : ∀ u ∈ units, M.Satisfies u.clause)
    (hd : d ∈ (combine halt true nucleus units required r).1) : M.Satisfies d.clause := by
  have hnone : Refuted M .empty [] := by simp [Refuted]
  refine combineFrom_satisfies Subst.idempotent_empty hnone hunits (fun chosen τ hτ e he => ?_) hd
  split at he
  · rw [List.mem_singleton.1 he]
    exact hyperresolvent_satisfies hn hτ
  · simp at he

theorem combineEach_satisfies {units nuclei : List Filed}
    (hunits : ∀ u ∈ units, M.Satisfies u.clause) (hn : ∀ n ∈ nuclei, M.Satisfies n.clause)
    (hd : d ∈ (combineEach halt true given units nuclei r).1) : M.Satisfies d.clause := by
  induction nuclei generalizing r with
  | nil => simp [combineEach] at hd
  | cons n ns ih =>
    have hrest : ∀ n ∈ ns, M.Satisfies n.clause := fun w hw => hn w (List.mem_cons_of_mem _ hw)
    have hone : ∀ e ∈ (if n.clause.literals.all Literal.positive then (([] : List Derived), r)
        else if n.id = given.id then combine halt true n units none r
        else if isPositiveUnit given.clause then combine halt true n units (some given.id) r
        else ([], r)).1, M.Satisfies e.clause := by
      intro e he
      have hsat := hn n (List.mem_cons_self ..)
      split at he
      · simp at he
      · split at he
        · exact combine_satisfies hsat hunits he
        · split at he
          · exact combine_satisfies hsat hunits he
          · simp at he
    rw [combineEach] at hd
    generalize (if n.clause.literals.all Literal.positive = true then (([] : List Derived), r)
      else if n.id = given.id then combine halt true n units none r
      else if isPositiveUnit given.clause = true then
        combine halt true n units (some given.id) r
      else ([], r)) = out at hone hd
    obtain ⟨ds, r₁⟩ := out
    dsimp only at hd
    split at hd
    · exact hone d hd
    · rcases List.mem_append.1 hd with hd | hd
      · exact hone d hd
      · exact ih hrest hd

/-! ### Unit deletion -/

variable {cl : Clause} {r' : Renamer} {known : Filed → Prop} {x : Deletion}

/-- A literal whose complement is an instance of a true unit is never true. -/
theorem Deletes.not_holds (h : Deletes known cl r r' x) (hx : M.Satisfies x.unit.clause)
    (hl : cl.literals[x.position]? = some l) : ¬ l.Holds M v := by
  obtain ⟨k, m, hk, hm, hσ⟩ := h.refutes
  obtain rfl : k = l := Option.some.inj (hk.symm.trans hl)
  obtain ⟨hp, hmatch⟩ := Subst.matchLiteral_matches hσ
  have hcopy := hmatch.literal_eq hp fun _ _ h => h
  obtain ⟨n, hn, hv⟩ := hx fun y => ((x.renamed.value y).subst x.matcher).eval M.fn v
  obtain rfl : n = m := by simpa [hm] using hn
  rw [← Literal.holds_negate, ← hcopy, Literal.holds_subst, Literal.holds_subst]
  simpa only [Term.eval_subst] using hv

/-- The shorter clause follows from the clause and the units it names. -/
theorem unitDeleted_satisfies {s : Store} {f : Filed} (hf : M.Satisfies f.clause)
    (hunits : ∀ x ∈ (deletions s f.clause r).1, M.Satisfies x.unit.clause) :
    M.Satisfies (unitDeleted f (deletions s f.clause r).1).clause := by
  obtain ⟨-, hdeletes, -⟩ := deletions_deletes s f.clause r fun _ _ _ => trivial
  intro v
  obtain ⟨l, hl, hv⟩ := hf v
  obtain ⟨k, hk⟩ := List.mem_iff_getElem?.1 hl
  refine ⟨l, Clause.mem_ofList.2 (mem_dropAt.2 ⟨k, hk, fun hmem => ?_⟩), hv⟩
  obtain ⟨x, hx, he⟩ := List.mem_map.1 hmem
  obtain rfl : x.position = k := Int.ofNat.inj he
  exact (hdeletes x hx).not_holds (hunits x hx) hk hv

end Inference

/-! ### Searches -/

namespace Search

open Inference

variable {s s' : Search} {d : Derived} {given : Filed} {strategy : Strategy} {seeds : List Derived}

/-- Everything that is filed is true in the structure, and what waits is filed. -/
structure TrueIn (M : Structure D) (s : Search) : Prop where
  occursCheck : s.strategy.occursCheck = true
  filed : ∀ f, s.Files f → M.Satisfies f.clause
  waiting : ∀ f ∈ s.agenda.waiting, s.Files f

theorem TrueIn.congr (h : s.TrueIn M) (hs : s'.strategy = s.strategy)
    (ha : s'.agenda = s.agenda) : s'.TrueIn M := by
  refine ⟨hs ▸ h.occursCheck, ?_, ?_⟩
  · simp only [Files, ha]
    exact h.filed
  · simp only [Files, ha]
    exact h.waiting

theorem TrueIn.file (h : s.TrueIn M) (hd : M.Satisfies d.clause) : (s.file d).2.TrueIn M where
  occursCheck := h.occursCheck
  filed f hf := by
    rcases Arena.files_add_cases hf with hf | rfl
    · exact h.filed f hf
    · exact hd
  waiting f hf := (h.waiting f hf).add d

theorem TrueIn.refute (h : s.TrueIn M) (hd : M.Satisfies d.clause) : (s.refute d).TrueIn M :=
  (h.file hd).congr rfl rfl

theorem TrueIn.enqueue (h : s.TrueIn M) (hd : M.Satisfies d.clause) : (s.enqueue d).TrueIn M where
  occursCheck := h.occursCheck
  filed := (h.file hd).filed
  waiting f hf := by
    rcases List.mem_append.1 hf with hf | hf
    · exact (h.waiting f hf).add d
    · rw [List.mem_singleton.1 hf]
      exact Arena.files_add_self _ d

/-- A clause that is shortened is filed first, and the shorter one is true as well. -/
theorem TrueIn.shorten (h : s.TrueIn M) (hd : M.Satisfies d.clause) :
    (s.shorten d).2.TrueIn M ∧ M.Satisfies (s.shorten d).1.clause := by
  rw [Search.shorten]
  split
  · rcases simplify_cases s.agenda.usable d s.renamer with heq | ⟨-, heq⟩ <;> rw [heq]
    · exact ⟨h.congr rfl rfl, hd⟩
    · have hs := h.file hd
      obtain ⟨-, hx, -⟩ := deletions_deletes s.agenda.usable d.clause s.renamer
        fun _ f hf => h.filed f (Arena.files_of_filed? hf).1
      have hshort := unitDeleted_satisfies (f := ⟨s.agenda.usable.arena.size, d⟩) hd
        fun x hm => (hx x hm).known
      dsimp only
      split
      · exact ⟨hs.congr rfl rfl, hshort⟩
      · exact ⟨hs.congr rfl rfl, hd⟩
  · exact ⟨h, hd⟩

theorem TrueIn.keepShortened (h : s.TrueIn M) (hd : M.Satisfies d.clause) :
    (s.keepShortened d).TrueIn M := by
  rw [Search.keepShortened]
  split
  · exact h.refute hd
  · split
    · exact h.congr rfl rfl
    · split
      · exact h.congr rfl rfl
      · exact h.congr rfl rfl
      · split
        · exact h.congr rfl rfl
        · exact (h.enqueue hd).congr rfl rfl

theorem TrueIn.keep (h : s.TrueIn M) (hd : M.Satisfies d.clause) : (s.keep d).TrueIn M := by
  have h₁ : TrueIn M { s with
      statistics := { s.statistics with generated := s.statistics.generated + 1 } } :=
    h.congr rfl rfl
  obtain ⟨h₂, hshort⟩ := h₁.shorten hd
  rw [Search.keep]
  dsimp only
  split
  · exact h₂
  · exact h₂.keepShortened hshort

theorem TrueIn.keepAll {ds : List Derived} (h : s.TrueIn M)
    (hds : ∀ d ∈ ds, M.Satisfies d.clause) : (s.keepAll ds).TrueIn M := by
  induction ds generalizing s with
  | nil => exact h
  | cons d ds ih =>
    have h₁ := h.keep (hds d (List.mem_cons_self ..))
    rw [Search.keepAll]
    split
    · exact h₁
    · exact ih h₁ fun e he => hds e (List.mem_cons_of_mem _ he)

theorem TrueIn.makeUsable (h : s.TrueIn M) (given : Filed) : (s.makeUsable given).TrueIn M := by
  obtain ⟨ids, statistics, -, heq⟩ := makeUsable_eq s given
  refine ⟨?_, fun f hf => h.filed f (files_makeUsable.1 hf), fun f hf => files_makeUsable.2 ?_⟩
  · rw [heq]
    exact h.occursCheck
  · rw [heq] at hf
    exact h.waiting f hf

/-- Whatever is inferred from true clauses is true. -/
theorem TrueIn.infer (h : s.TrueIn M) (hg : s.Files given) :
    (s.infer given).2.TrueIn M ∧ ∀ d ∈ (s.infer given).1, M.Satisfies d.clause := by
  refine ⟨h.congr rfl rfl, fun d hd => ?_⟩
  have husable : ∀ f ∈ s.agenda.usable.clauses, M.Satisfies f.clause := fun f hf =>
    h.filed f (Store.files_of_mem_clauses hf)
  simp only [Search.infer, h.occursCheck] at hd
  rcases List.mem_append.1 hd with hd | hd
  · rcases List.mem_append.1 hd with hd | hd
    · rw [factorsOf, h.occursCheck] at hd
      split at hd
      · exact (factors_inferred hd).sound (by simpa using h.filed given hg)
      · simp at hd
    · exact resolveEach_satisfies (h.filed given hg)
        (fun x hx => h.filed _ (files_of_mem_meetings hx)) hd
  · split at hd
    · exact combineEach_satisfies (fun u hu => husable u (List.mem_filter.1 hu).1) husable hd
    · simp at hd

theorem TrueIn.process (h : s.TrueIn M) (hg : s.Files given) : (s.process given).TrueIn M := by
  by_cases ht : given.clause.isTautology = true
  · rw [Search.process, if_pos ht]
    exact h.congr rfl rfl
  · by_cases hs : s.agenda.usable.isSubsumed given.clause = true
    · rw [Search.process, if_neg ht, if_pos hs]
      exact h.congr rfl rfl
    · have h₁ := h.makeUsable given
      obtain ⟨h₂, hds⟩ := h₁.infer (files_makeUsable.2 hg)
      rw [process_eq s given ht hs]
      split
      · exact h₂.keepAll hds
      · obtain ⟨renamer, statistics, hfail⟩ := failToInfer_eq (s.makeUsable given) given
        rw [hfail]
        exact h₁.congr rfl rfl

theorem TrueIn.takeGiven {i : Nat} {agenda : Agenda} (h : s.TrueIn M)
    (ht : s.agenda.take? i = some (given, agenda)) :
    (s.takeGiven given agenda).TrueIn M ∧ (s.takeGiven given agenda).Files given := by
  obtain ⟨f, hf, he⟩ := Option.map_eq_some_iff.1 ht
  obtain ⟨rfl, rfl⟩ := Prod.mk.inj he
  have hw : s.Files f := h.waiting f (List.mem_of_getElem? hf)
  refine ⟨⟨h.occursCheck, h.filed, fun g hg => ?_⟩, hw⟩
  exact h.waiting g (List.mem_of_mem_eraseIdx hg)

theorem TrueIn.advance (h : s.TrueIn M) : s.advance.TrueIn M := by
  rw [Search.advance]
  split
  · exact h.congr rfl rfl
  · exact h.congr rfl rfl
  · exact h.congr rfl rfl
  · next selector _ _ =>
    have h₀ : TrueIn M { s with selector := some (selector.run s.agenda.waiting).2 } :=
      h.congr rfl rfl
    dsimp only
    split
    · next given agenda ht =>
      obtain ⟨i, -, ht⟩ := Option.bind_eq_some_iff.1 ht
      obtain ⟨h₁, hg⟩ := h₀.takeGiven ht
      exact h₁.process hg
    · split
      · exact h₀.congr rfl rfl
      · exact h₀.congr rfl rfl

theorem TrueIn.step (h : s.TrueIn M) : s.step.TrueIn M := by
  have h₀ : TrueIn M { s.start with fault := none } := by
    rw [Search.start]
    split
    · exact h.congr rfl rfl
    · exact h.congr rfl rfl
  rw [Search.step]
  dsimp only
  split
  · exact h₀.advance
  · exact h₀

theorem TrueIn.seedAll {ds : List Derived} (h : s.TrueIn M)
    (hds : ∀ d ∈ ds, M.Satisfies d.clause) : (s.seedAll ds).TrueIn M := by
  induction ds generalizing s with
  | nil => exact h
  | cons d ds ih =>
    have hd := hds d (List.mem_cons_self ..)
    have hrest : ∀ d ∈ ds, M.Satisfies d.clause := fun e he => hds e (List.mem_cons_of_mem _ he)
    rw [Search.seedAll]
    split
    · exact h.refute hd
    · split
      · exact ih (h.file hd) hrest
      · exact ih (h.enqueue hd) hrest

/-- The states that a search can come to: input may be added until the first round, and then it
goes on round by round. -/
inductive Reached (strategy : Strategy) : List Derived → Search → Prop
  | create (limits : Limits) (selector : Option Selector) (around : Surroundings) :
      Reached strategy [] { limits, selector, around, strategy }
  | seed {seeds ds : List Derived} {s s' : Search} (h : Reached strategy seeds s)
      (hs : s.seed ds = .ok s') : Reached strategy (seeds ++ ds) s'
  | step {seeds : List Derived} {s : Search} (h : Reached strategy seeds s) :
      Reached strategy seeds s.step

theorem seed_eq_ok {ds : List Derived} (h : s.seed ds = .ok s') :
    s.status = .ready ∧ s' = s.seedAll ds := by
  rw [Search.seed] at h
  split at h
  · next hr => exact ⟨hr, (Except.ok.inj h).symm⟩
  · cases h

theorem Reached.trueIn (h : Reached strategy seeds s) (ho : strategy.occursCheck = true)
    (hM : ∀ d ∈ seeds, M.Satisfies d.clause) : s.TrueIn M := by
  induction h with
  | create limits selector around =>
    refine ⟨ho, fun f hf => ?_, by simp⟩
    simp [Files, Arena.Files, Arena.get?] at hf
  | seed _ hs ih =>
    rw [(seed_eq_ok hs).2]
    exact (ih fun d hd => hM d (List.mem_append_left _ hd)).seedAll
      fun d hd => hM d (List.mem_append_right _ hd)
  | step _ ih => exact (ih hM).step

/-- Every clause that a search files, in whatever state it is, follows from the input. -/
theorem Reached.follows (h : Reached strategy seeds s) (ho : strategy.occursCheck = true) :
    (∀ {D : Type u} (M : Structure D), (∀ d ∈ seeds, M.Satisfies d.clause) →
      ∀ f, s.Files f ∨ f ∈ s.agenda.usable.clauses ∨ f ∈ s.agenda.waiting →
        M.Satisfies f.clause) ∧
    ∀ f, s.outcome.proofClause = .ok f → f.clause.isEmpty = true →
      ∀ {D : Type u} [Nonempty D] (M : Structure D), ¬ ∀ d ∈ seeds, M.Satisfies d.clause := by
  refine ⟨fun M hM f hf => ?_, fun f hf he D hD M hM => ?_⟩
  · have htrue := h.trueIn ho hM
    rcases hf with hf | hf | hf
    · exact htrue.filed f hf
    · exact htrue.filed f (Store.files_of_mem_clauses hf)
    · exact htrue.filed f (htrue.waiting f hf)
  · have htrue := (h.trueIn ho hM).filed f (proofClause_eq_ok hf).2.1
    exact htrue.ne_nil (List.isEmpty_iff.1 he)

/-- Three clauses that contradict each other. Their variable is named as renaming names them. -/
def contradiction : List Derived :=
  [⟨.ofList [⟨⟨"p", [.var "x_1"]⟩, true⟩], none⟩,
    ⟨.ofList [⟨⟨"p", [.var "x_1"]⟩, false⟩, ⟨⟨"q", [.var "x_1"]⟩, true⟩], none⟩,
    ⟨.ofList [⟨⟨"q", [.var "x_1"]⟩, false⟩], none⟩]

def allRules : Strategy := { hyperresolution := true, unitDeletion := true }

-- the third round resolves to `q`, which is filed and shortened to the empty clause
theorem Reached.follows_contradiction :
    ∃ s f, Reached allRules contradiction s ∧ s.outcome.proofClause = .ok f ∧
      f.clause.isEmpty = true ∧
      ∀ M : Structure Nat, ¬ ∀ d ∈ contradiction, M.Satisfies d.clause := by
  let s₀ : Search := { strategy := allRules }
  let s : Search := (s₀.seedAll contradiction).step.step.step
  have hseed : Reached allRules ([] ++ contradiction) (s₀.seedAll contradiction) :=
    (Reached.create {} (some ⟨.smallest, 0, 0⟩) {}).seed rfl
  have hs : Reached allRules contradiction s := hseed.step.step.step
  have heval : (s.outcome.proofClause.toOption.map fun f => f.clause.isEmpty) = some true := by
    decide +kernel
  obtain ⟨f, hf, he⟩ := Option.map_eq_some_iff.1 heval
  have hf := eq_ok_of_toOption hf
  exact ⟨s, f, hs, hf, he, (hs.follows rfl).2 f hf he⟩

end Search

end Elenchus

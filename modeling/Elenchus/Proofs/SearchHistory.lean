import Elenchus.Proofs.InferenceRules
import Elenchus.Proofs.Stores
import Elenchus.Search.Basic

/-! Every clause that is filed is a premise or inferred from clauses that were filed before it. -/

namespace Elenchus

open Inference

namespace Arena

variable {a : Arena} {d : Derived} {f : Filed} {premises : List Derived} {r r' : Renamer}

/-- Every clause is a premise or inferred from earlier ones, and clear of names to come. -/
structure History (premises : List Derived) (r : Renamer) (a : Arena) : Prop where
  origin : ∀ f, a.Files f → f.derived ∈ premises ∨
    ∃ ps, (∀ p ∈ ps, a.Files p ∧ p.id < f.id) ∧ Inferred ps f.derived
  clear : ∀ f, a.Files f → r.Clear f.clause

theorem history_empty (premises : List Derived) (r : Renamer) : History premises r {} :=
  ⟨fun f h => by simp [Files, get?] at h, fun f h => by simp [Files, get?] at h⟩

theorem History.mono (h : a.History premises r) (hr : r.Precedes r') : a.History premises r' :=
  ⟨h.origin, fun f hf => (h.clear f hf).mono hr⟩

theorem History.add (h : a.History premises r) (hclear : r.Clear d.clause)
    (hd : d ∈ premises ∨ ∃ ps, (∀ p ∈ ps, a.Files p) ∧ Inferred ps d) :
    (a.add d).2.History premises r := by
  refine ⟨fun f hf => ?_, fun f hf => ?_⟩
  · rcases files_add_cases hf with hf | rfl
    · refine (h.origin f hf).imp_right ?_
      rintro ⟨ps, hps, hi⟩
      exact ⟨ps, fun p hp => ⟨(hps p hp).1.add d, (hps p hp).2⟩, hi⟩
    · refine hd.imp_right ?_
      rintro ⟨ps, hps, hi⟩
      exact ⟨ps, fun p hp => ⟨(hps p hp).add d, (hps p hp).lt_size⟩, hi⟩
  · rcases files_add_cases hf with hf | rfl
    · exact h.clear f hf
    · exact hclear

/-- What premises have and inferences hand down, all clauses have. -/
theorem History.induction (h : a.History premises r) {P : Derived → Prop}
    (premise : ∀ d ∈ premises, P d)
    (inferred : ∀ ps d, (∀ p ∈ ps, P p.derived) → Inferred ps d → P d) (hf : a.Files f) :
    P f.derived := by
  induction hn : f.id using Nat.strong_induction_on generalizing f with
  | _ n ih =>
    rcases h.origin f hf with hp | ⟨ps, hps, hi⟩
    · exact premise _ hp
    · exact inferred ps _ (fun p hp => ih p.id (hn ▸ (hps p hp).2) (hps p hp).1 rfl) hi

end Arena

theorem Inference.Yields.of_imp {known known' : Filed → Prop} {r : Renamer} {d : Derived}
    (h : Yields known r d) (hk : ∀ p, known p → known' p) : Yields known' r d := by
  obtain ⟨⟨ps, hps, hi⟩, hc⟩ := h
  exact ⟨⟨ps, fun p hp => hk p (hps p hp), hi⟩, hc⟩

/-! ### One search -/

namespace Search

variable {premises : List Derived} {s s' : Search} {d : Derived} {given : Filed}

def Files (s : Search) (f : Filed) : Prop := s.agenda.usable.arena.Files f

/-- What holds throughout a search with the occurs check. -/
structure Sound (premises : List Derived) (s : Search) : Prop where
  mark : s.renamer.mark = "_"
  occursCheck : s.strategy.occursCheck = true
  history : s.agenda.usable.arena.History premises s.renamer
  waiting : ∀ f ∈ s.agenda.waiting, s.Files f
  refuted : s.status = .refuted →
    ∃ f, s.proofId = some f.id ∧ s.Files f ∧ isRefutation f.clause = true

/-- Clauses stay filed and names stay used up. -/
structure Evolves (s s' : Search) : Prop where
  files : ∀ f, s.Files f → s'.Files f
  precedes : s.renamer.Precedes s'.renamer

/-- What the invariant is about; the rest of a search is counts and reasons. -/
def core (s : Search) : Renamer × Strategy × Agenda × Status × Option Nat :=
  (s.renamer, s.strategy, s.agenda, s.status, s.proofId)

theorem Evolves.refl (s : Search) : s.Evolves s := ⟨fun _ h => h, .refl _⟩

theorem Evolves.trans {s'' : Search} (h : s.Evolves s') (h' : s'.Evolves s'') : s.Evolves s'' :=
  ⟨fun f hf => h'.files f (h.files f hf), h.precedes.trans h'.precedes⟩

theorem Evolves.yields (h : s.Evolves s') (hd : Yields s.Files s.renamer d) :
    Yields s'.Files s'.renamer d :=
  (hd.mono h.precedes).of_imp h.files

theorem Sound.congr (h : s.Sound premises) (hc : s'.core = s.core) : s'.Sound premises := by
  simp only [core, Prod.mk.injEq] at hc
  obtain ⟨hr, hst, ha, hs, hp⟩ := hc
  refine ⟨hr ▸ h.mark, hst ▸ h.occursCheck, ?_, ?_, ?_⟩
  · rw [hr, ha]
    exact h.history
  · simp only [Files, ha]
    exact h.waiting
  · simp only [hs, hp, Files, ha]
    exact h.refuted

theorem Evolves.congr {s₁ : Search} (h : s.Evolves s₁) (hc : s'.core = s₁.core) :
    s.Evolves s' := by
  simp only [core, Prod.mk.injEq] at hc
  obtain ⟨hr, -, ha, -, -⟩ := hc
  refine ⟨fun f hf => ?_, hr ▸ h.precedes⟩
  rw [Files, ha]
  exact h.files f hf

theorem Sound.of_core (h : s.Sound premises) (hc : s'.core = s.core) :
    s'.Sound premises ∧ s.Evolves s' :=
  ⟨h.congr hc, (Evolves.refl s).congr hc⟩

theorem Sound.clear (h : s.Sound premises) (f : Filed) (hf : s.Files f) :
    s.renamer.Clear f.clause :=
  h.history.clear f hf

/-- A clause that may be filed: a premise, or inferred from filed clauses. -/
def Fits (premises : List Derived) (s : Search) (d : Derived) : Prop :=
  s.renamer.Clear d.clause ∧
    (d ∈ premises ∨ ∃ ps, (∀ p ∈ ps, s.Files p) ∧ Inferred ps d)

theorem fits_of_yields (h : Yields s.Files s.renamer d) : s.Fits premises d := ⟨h.2, Or.inr h.1⟩

theorem Sound.file (h : s.Sound premises) (hd : s.Fits premises d) :
    (s.file d).2.Sound premises where
  mark := h.mark
  occursCheck := h.occursCheck
  history := h.history.add hd.1 hd.2
  waiting f hf := (h.waiting f hf).add d
  refuted hs := by
    obtain ⟨f, hid, hf, hr⟩ := h.refuted hs
    exact ⟨f, hid, hf.add d, hr⟩

theorem Sound.enqueue (h : s.Sound premises) (hd : s.Fits premises d) :
    (s.enqueue d).Sound premises where
  mark := h.mark
  occursCheck := h.occursCheck
  history := h.history.add hd.1 hd.2
  waiting f hf := by
    rcases List.mem_append.1 hf with hf | hf
    · exact (h.waiting f hf).add d
    · rw [List.mem_singleton.1 hf]
      exact Arena.files_add_self _ d
  refuted hs := by
    obtain ⟨f, hid, hf, hr⟩ := h.refuted hs
    exact ⟨f, hid, hf.add d, hr⟩

theorem evolves_enqueue (s : Search) (d : Derived) : s.Evolves (s.enqueue d) :=
  ⟨fun _ hf => hf.add d, .refl _⟩

theorem Sound.refute (h : s.Sound premises) (hd : s.Fits premises d)
    (hr : isRefutation d.clause = true) : (s.refute d).Sound premises where
  mark := h.mark
  occursCheck := h.occursCheck
  history := h.history.add hd.1 hd.2
  waiting f hf := (h.waiting f hf).add d
  refuted _ := ⟨⟨s.agenda.usable.arena.size, d⟩, rfl, Arena.files_add_self _ d, hr⟩

theorem evolves_refute (s : Search) (d : Derived) : s.Evolves (s.refute d) :=
  ⟨fun _ hf => hf.add d, .refl _⟩

/-! ### New clauses -/

/-- Unit deletion gives back the store as it was, or files the clause and shortens it. -/
theorem simplify_cases (st : Store) (d : Derived) (r : Renamer) :
    Inference.simplify st d none r = (none, st, (deletions st d.clause r).2) ∨
      (deletions st d.clause r).1 ≠ [] ∧
      Inference.simplify st d none r =
        (some ⟨st.arena.size, unitDeleted ⟨st.arena.size, d⟩ (deletions st d.clause r).1,
          (deletions st d.clause r).1.length⟩, (st.addToArena d).2,
          (deletions st d.clause r).2) := by
  rw [Inference.simplify]
  generalize deletions st d.clause r = p
  obtain ⟨xs, r'⟩ := p
  cases xs with
  | nil => exact Or.inl rfl
  | cons x xs => exact Or.inr ⟨by simp, rfl⟩

theorem Sound.setRenamer {r : Renamer} (h : s.Sound premises) (hr : s.renamer.Precedes r) :
    Sound premises { s with renamer := r } :=
  ⟨hr.mark.trans h.mark, h.occursCheck, h.history.mono hr, h.waiting, h.refuted⟩

/-- Shortening leaves the clause as it is, or files it and puts a shorter one in its place. -/
theorem Sound.shorten (h : s.Sound premises) (hd : Yields s.Files s.renamer d) :
    (s.shorten d).2.Sound premises ∧ s.Evolves (s.shorten d).2 ∧
      Yields (s.shorten d).2.Files (s.shorten d).2.renamer (s.shorten d).1 := by
  rw [Search.shorten]
  split
  · obtain ⟨hp, hx, hn⟩ := deletions_deletes s.agenda.usable d.clause s.renamer
      fun id f hf => ((Arena.files_of_filed? hf).1.add d : (s.file d).2.Files f)
    rcases simplify_cases s.agenda.usable d s.renamer with heq | ⟨hne, heq⟩ <;> rw [heq]
    · exact ⟨h.setRenamer hp, ⟨fun _ hf => hf, hp⟩, hd.mono hp⟩
    · have hs := (h.file (fits_of_yields hd)).setRenamer hp
      have he : s.Evolves { (s.file d).2 with
          renamer := (deletions s.agenda.usable d.clause s.renamer).2 } :=
        ⟨fun _ hf => hf.add d, hp⟩
      have hy := unitDeleted_yields (f := ⟨s.agenda.usable.arena.size, d⟩)
        hd.2 hx (Arena.files_add_self _ d) hp hne hn
      dsimp only
      split
      · exact ⟨hs.congr rfl, he.congr rfl, hy⟩
      · exact ⟨hs.congr rfl, he.congr rfl, he.yields hd⟩
  · exact ⟨h, .refl s, hd⟩

theorem Sound.keepShortened (h : s.Sound premises) (hd : Yields s.Files s.renamer d) :
    (s.keepShortened d).Sound premises ∧ s.Evolves (s.keepShortened d) := by
  rw [Search.keepShortened]
  split
  · next hr => exact ⟨h.refute (fits_of_yields hd) hr, evolves_refute s d⟩
  · split
    · exact h.of_core rfl
    · split
      · exact h.of_core rfl
      · exact h.of_core rfl
      · split
        · exact h.of_core rfl
        · exact ⟨(h.enqueue (fits_of_yields hd)).congr rfl, (evolves_enqueue s d).congr rfl⟩

theorem Sound.keep (h : s.Sound premises) (hd : Yields s.Files s.renamer d) :
    (s.keep d).Sound premises ∧ s.Evolves (s.keep d) := by
  let s₁ : Search := { s with
    statistics := { s.statistics with generated := s.statistics.generated + 1 } }
  have h₁ : s₁.Sound premises := h.congr rfl
  have e₁ : s.Evolves s₁ := (Evolves.refl s).congr rfl
  obtain ⟨h₂, e₂, hy⟩ := h₁.shorten (e₁.yields hd)
  rw [Search.keep]
  dsimp only
  split
  · exact ⟨h₂, e₁.trans e₂⟩
  · obtain ⟨h₃, e₃⟩ := h₂.keepShortened hy
    exact ⟨h₃, (e₁.trans e₂).trans e₃⟩

theorem Sound.keepAll {ds : List Derived} (h : s.Sound premises)
    (hds : ∀ d ∈ ds, Yields s.Files s.renamer d) :
    (s.keepAll ds).Sound premises ∧ s.Evolves (s.keepAll ds) := by
  induction ds generalizing s with
  | nil => exact ⟨h, .refl s⟩
  | cons d ds ih =>
    obtain ⟨h₁, e₁⟩ := h.keep (hds d (List.mem_cons_self ..))
    rw [Search.keepAll]
    split
    · exact ⟨h₁, e₁⟩
    · obtain ⟨h₂, e₂⟩ := ih h₁ fun e he => e₁.yields (hds e (List.mem_cons_of_mem _ he))
      exact ⟨h₂, e₁.trans e₂⟩

/-! ### Rounds -/

theorem files_of_mem_meetings {st : Store} {x : Nat × Filed × Nat} (h : x ∈ meetings st given) :
    st.arena.Files x.2.1 := by
  simp only [meetings, List.mem_flatMap, List.mem_filterMap] at h
  obtain ⟨p, -, c, -, hc⟩ := h
  obtain ⟨f, hf, rfl⟩ := Option.map_eq_some_iff.1 hc
  exact (Arena.files_of_filed? hf).1

/-- A change of the usable clauses that leaves the arena alone. -/
theorem Sound.setUsable {st : Store} (h : s.Sound premises)
    (ha : st.arena = s.agenda.usable.arena) :
    Sound premises { s with agenda := { s.agenda with usable := st } } ∧
      s.Evolves { s with agenda := { s.agenda with usable := st } } := by
  refine ⟨⟨h.mark, h.occursCheck, ?_, ?_, ?_⟩, ?_, .refl _⟩
  all_goals simp only [Files, ha]
  · exact h.history
  · exact h.waiting
  · exact h.refuted
  · exact fun _ hf => hf

theorem Sound.resolvents_sound (h : s.Sound premises) (hg : s.Files given) (halt : Halt) :
    Inference.Sound s.Files s.renamer
      (resolventsUpTo halt true s.agenda.usable given s.renamer) :=
  resolveEach_sound h.clear hg fun _ hx => files_of_mem_meetings hx

theorem Sound.hyperresolvents_sound {r : Renamer} (h : s.Sound premises)
    (hr : s.renamer.Precedes r) (given : Filed) (halt : Halt) :
    Inference.Sound s.Files r (hyperresolventsUpTo halt true s.agenda.usable given r) :=
  combineEach_sound (fun p hp => (h.clear p hp).mono hr)
    (fun _ hu => Store.files_of_mem_clauses (List.mem_filter.1 hu).1)
    fun _ hn => Store.files_of_mem_clauses hn

/-- Everything that is inferred in a round is inferred from filed clauses. -/
theorem Sound.infer (h : s.Sound premises) (hg : s.Files given) :
    (s.infer given).2.Sound premises ∧ s.Evolves (s.infer given).2 ∧
      ∀ d ∈ (s.infer given).1, Yields (s.infer given).2.Files (s.infer given).2.renamer d := by
  have hres := h.resolvents_sound hg .never
  have hfac : ∀ d ∈ s.factorsOf given, Yields s.Files s.renamer d := by
    intro d hd
    rw [factorsOf, h.occursCheck] at hd
    split at hd
    · exact factors_yields hg (h.clear given hg) hd
    · simp at hd
  rw [Search.infer]
  simp only [h.occursCheck, Inference.resolvents, Inference.hyperresolvents]
  generalize resolventsUpTo .never true s.agenda.usable given s.renamer = out at hres ⊢
  obtain ⟨rs, r₁⟩ := out
  have hhyp : Inference.Sound s.Files r₁ (if s.strategy.hyperresolution then
      hyperresolventsUpTo .never true s.agenda.usable given r₁ else ([], r₁)) := by
    split
    · exact h.hyperresolvents_sound hres.precedes given .never
    · exact sound_nil _ _
  dsimp only
  generalize (if s.strategy.hyperresolution then
      hyperresolventsUpTo .never true s.agenda.usable given r₁ else ([], r₁)) = out at hhyp ⊢
  obtain ⟨hs, r₂⟩ := out
  have hall := hres.append hhyp
  have hr := hall.precedes
  refine ⟨(h.setRenamer hr).congr rfl, ⟨fun _ hf => hf, hr⟩, fun d hd => ?_⟩
  rw [List.append_assoc] at hd
  rcases List.mem_append.1 hd with hd | hd
  · exact (hfac d hd).mono hr
  · exact hall.yields d hd

theorem failToInfer_eq (s : Search) (given : Filed) :
    ∃ renamer statistics, s.failToInfer given =
      { s with renamer, statistics, fault := some .noDepth } := by
  rw [Search.failToInfer]
  dsimp only
  split
  · exact ⟨_, _, rfl⟩
  · split <;> exact ⟨_, _, rfl⟩

theorem Sound.failToInfer (h : s.Sound premises) (hg : s.Files given) :
    (s.failToInfer given).Sound premises := by
  have hres := h.resolvents_sound hg .noDepth
  rw [Search.failToInfer]
  simp only [h.occursCheck]
  split
  · exact h.congr rfl
  · generalize resolventsUpTo .noDepth true s.agenda.usable given s.renamer = out at hres ⊢
    obtain ⟨rs, r₁⟩ := out
    have hhyp := h.hyperresolvents_sound hres.precedes given .noDepth
    dsimp only
    split
    · exact (h.setRenamer hres.precedes).congr rfl
    · exact (h.setRenamer (hres.precedes.trans hhyp.precedes)).congr rfl

/-- The given clause becomes usable, and takes out the clauses that it subsumes. -/
def makeUsable (s : Search) (given : Filed) : Search :=
  { s.subsumeBackward given with agenda := (s.subsumeBackward given).agenda.moveToUsable given }

theorem makeUsable_eq (s : Search) (given : Filed) :
    ∃ (ids : List Nat) (statistics : Statistics),
      (∀ id ∈ ids, id ∈ s.agenda.usable.backSubsumed given.clause (some given.id)) ∧
      s.makeUsable given = { s with
        agenda := { s.agenda with
          usable := (ids.foldl Store.remove s.agenda.usable).activate given }
        statistics } := by
  rw [makeUsable, subsumeBackward]
  split
  · exact ⟨_, _, fun _ h => h, rfl⟩
  · exact ⟨[], _, by simp, rfl⟩

theorem makeUsable_arena (s : Search) (given : Filed) :
    (s.makeUsable given).agenda.usable.arena = s.agenda.usable.arena := by
  obtain ⟨ids, statistics, -, heq⟩ := makeUsable_eq s given
  rw [heq]
  exact (Store.activate_arena _ given).trans (Store.remove_arena ids _)

theorem files_makeUsable {f : Filed} : (s.makeUsable given).Files f ↔ s.Files f := by
  rw [Files, Files, makeUsable_arena]

theorem Sound.makeUsable (h : s.Sound premises) (given : Filed) :
    (s.makeUsable given).Sound premises ∧ s.Evolves (s.makeUsable given) := by
  have ha := makeUsable_arena s given
  obtain ⟨ids, statistics, -, heq⟩ := makeUsable_eq s given
  rw [heq] at ha ⊢
  obtain ⟨h₁, e₁⟩ := h.setUsable ha
  exact ⟨h₁.congr rfl, e₁.congr rfl⟩

theorem process_eq (s : Search) (given : Filed) (ht : ¬ given.clause.isTautology = true)
    (hs : ¬ s.agenda.usable.isSubsumed given.clause = true) :
    s.process given =
      if ((s.makeUsable given).infer given).1.all Derived.hasDepth then
        ((s.makeUsable given).infer given).2.keepAll ((s.makeUsable given).infer given).1
      else (s.makeUsable given).failToInfer given := by
  rw [Search.process, if_neg ht, if_neg hs]
  rfl

theorem Sound.process (h : s.Sound premises) (hg : s.Files given) :
    (s.process given).Sound premises := by
  by_cases ht : given.clause.isTautology = true
  · rw [Search.process, if_pos ht]
    exact h.congr rfl
  · by_cases hs : s.agenda.usable.isSubsumed given.clause = true
    · rw [Search.process, if_neg ht, if_pos hs]
      exact h.congr rfl
    · obtain ⟨h₁, e₁⟩ := h.makeUsable given
      have hg₁ := e₁.files given hg
      obtain ⟨h₂, -, hy⟩ := h₁.infer hg₁
      rw [process_eq s given ht hs]
      split
      · exact (h₂.keepAll hy).1
      · exact h₁.failToInfer hg₁

theorem Sound.takeGiven {i : Nat} {agenda : Agenda} (h : s.Sound premises)
    (ht : s.agenda.take? i = some (given, agenda)) :
    (s.takeGiven given agenda).Sound premises ∧ (s.takeGiven given agenda).Files given := by
  obtain ⟨f, hf, he⟩ := Option.map_eq_some_iff.1 ht
  obtain ⟨rfl, rfl⟩ := Prod.mk.inj he
  have hw : s.Files f := h.waiting f (List.mem_of_getElem? hf)
  refine ⟨⟨h.mark, h.occursCheck, h.history, fun g hg => ?_, h.refuted⟩, hw⟩
  exact h.waiting g (List.mem_of_mem_eraseIdx hg)

/-- A status other than `refuted` promises nothing. -/
theorem Sound.setStatus (h : s.Sound premises) (status : Status) (hs : status ≠ .refuted) :
    Sound premises { s with status } :=
  ⟨h.mark, h.occursCheck, h.history, h.waiting, fun hr => absurd hr hs⟩

theorem Sound.advance (h : s.Sound premises) : s.advance.Sound premises := by
  rw [Search.advance]
  split
  · exact h.congr rfl
  · exact (h.setStatus .exhausted (by decide)).congr rfl
  · exact h.congr rfl
  · next selector _ _ =>
    have h₀ : Sound premises { s with selector := some (selector.run s.agenda.waiting).2 } :=
      h.congr rfl
    dsimp only
    split
    · next given agenda ht =>
      obtain ⟨i, -, ht⟩ := Option.bind_eq_some_iff.1 ht
      obtain ⟨h₁, hg⟩ := h₀.takeGiven ht
      exact h₁.process hg
    · split
      · exact (h₀.setStatus .exhausted (by decide)).congr rfl
      · exact h₀.setStatus .saturated (by decide)

theorem Sound.start (h : s.Sound premises) : Sound premises { s.start with fault := none } := by
  rw [Search.start]
  split
  · exact (h.setStatus .searching (by decide)).congr rfl
  · exact h.congr rfl

theorem Sound.step (h : s.Sound premises) : s.step.Sound premises := by
  rw [Search.step]
  dsimp only
  split
  · exact h.start.advance
  · exact h.start

theorem Sound.stepWithin (h : s.Sound premises) (rounds : Nat) :
    (s.stepWithin rounds).Sound premises := by
  induction rounds generalizing s with
  | zero => exact h
  | succ n ih =>
    rw [Search.stepWithin]
    split
    · exact ih h.step
    · exact h

theorem Sound.run (h : s.Sound premises) : s.run.Sound premises :=
  h.start.stepWithin _

theorem Sound.seedAll {ds : List Derived} (h : s.Sound premises) (hp : ∀ d ∈ ds, d ∈ premises)
    (hclear : ∀ d ∈ ds, s.renamer.Clear d.clause) : (s.seedAll ds).Sound premises := by
  induction ds generalizing s with
  | nil => exact h
  | cons d ds ih =>
    have hd : s.Fits premises d :=
      ⟨hclear d (List.mem_cons_self ..), Or.inl (hp d (List.mem_cons_self ..))⟩
    have hp' : ∀ d ∈ ds, d ∈ premises := fun e he => hp e (List.mem_cons_of_mem _ he)
    have hc' : ∀ d ∈ ds, s.renamer.Clear d.clause := fun e he =>
      hclear e (List.mem_cons_of_mem _ he)
    rw [Search.seedAll]
    split
    · next hr => exact h.refute hd hr
    · split
      · exact ih (h.file hd) hp' hc'
      · exact ih (h.enqueue hd) hp' hc'

/-! ### Outcomes -/

/-- A refutation has no literals, or one that is an answer. -/
theorem isRefutation_iff {c : Clause} :
    isRefutation c = true ↔ c.literals = [] ∨ ∃ l, c.literals = [l] ∧ l.isAnswer = true := by
  simp only [isRefutation, Clause.isEmpty, Clause.isAnswer, Clause.length, Bool.or_eq_true,
    Bool.and_eq_true, beq_iff_eq, List.isEmpty_iff, List.length_eq_one_iff]
  refine or_congr Iff.rfl ⟨?_, ?_⟩
  · rintro ⟨⟨-, hall⟩, l, hl⟩
    exact ⟨l, hl, List.all_eq_true.1 hall l (by simp [hl])⟩
  · rintro ⟨l, hl, hans⟩
    exact ⟨by simp [hl, hans], l, hl⟩

theorem proofClause_eq_ok {f : Filed} (h : s.outcome.proofClause = .ok f) :
    s.status = .refuted ∧ s.Files f ∧ s.proofId = some f.id := by
  rw [Outcome.proofClause] at h
  split at h
  · next hst hf =>
    obtain ⟨id, hid, hf⟩ := Option.bind_eq_some_iff.1 hf
    obtain rfl := Except.ok.inj h
    obtain ⟨hfiles, rfl⟩ := Arena.files_of_filed? hf
    exact ⟨hst, hfiles, hid⟩
  · cases h

theorem Sound.isRefutation_proofClause (h : s.Sound premises) {f : Filed}
    (hf : s.outcome.proofClause = .ok f) : isRefutation f.clause = true := by
  obtain ⟨hst, hfiles, hid⟩ := proofClause_eq_ok hf
  obtain ⟨g, hid', hg, href⟩ := h.refuted hst
  have hids : g.id = f.id := Option.some.inj (hid'.symm.trans hid)
  exact hg.unique hfiles hids ▸ href

end Search

end Elenchus

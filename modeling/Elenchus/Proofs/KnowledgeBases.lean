import Elenchus.Proofs.ClauseForm
import Elenchus.Proofs.Stores

/-! Stored formulas and active clauses have the same structures, up to Skolem symbols. -/

namespace Elenchus

universe u

/-- The clauses that a formula gave when it was added, whether they are active or not. -/
def KnowledgeEntry.derived (e : KnowledgeEntry) : List Derived := e.clauses.map Prod.snd

/-- The clauses are those of the formula, for a table that knows its symbols. -/
def KnowledgeEntry.IsNormal (e : KnowledgeEntry) : Prop :=
  ∃ sig : Signature, e.formula.Proper ∧
    (∀ a ∈ e.formula.atoms, ∀ s ∈ a.symbols, sig.contains s.name = true) ∧
    e.derived.map Derived.clause = (e.formula.clauses sig).1

/-- What clauses of formulas have that come in with a table. -/
structure Derived.IsInput (sig : Signature) (d : Derived) : Prop where
  standard : ∀ x ∈ d.clause.vars, IsStandard x
  known : ∀ s ∈ d.clause.symbols, sig.contains s.name = true
  parents : Arena.parentsOf d = []

theorem Derived.IsInput.mono {sig sig' : Signature} {d : Derived} (h : d.IsInput sig)
    (hg : sig.Grows sig') : d.IsInput sig' :=
  ⟨h.standard, fun s hs => hg.contains (h.known s hs), h.parents⟩

theorem Formula.Proper.isInput {f : Formula} {sig : Signature} (hf : f.Proper)
    (hk : ∀ a ∈ f.atoms, ∀ s ∈ a.symbols, sig.contains s.name = true) (source role rule : Item)
    {d : Derived} (hd : d ∈ (f.clauses sig).1.map (⟨·, some (.premise source role rule)⟩)) :
    d.IsInput (f.clauses sig).2 := by
  obtain ⟨c, hc, rfl⟩ := List.mem_map.1 hd
  have h := hf.hasClauses hk
  exact ⟨h.standard c hc, h.known c hc, rfl⟩

namespace KnowledgeBase

variable {kb kb' : KnowledgeBase} {name role : Item} {arities : List Item} {f : Formula}
  {e : KnowledgeEntry} {D : Type u} {M : Structure D}

/-- Successful additions lead to the knowledge base, starting from one without formulas. -/
inductive Built : KnowledgeBase → Prop
  | empty (version : Nat) : Built { version }
  | add {kb kb' : KnowledgeBase} {name role : Item} {arities : List Item} {f : Formula}
      {e : KnowledgeEntry} (h : Built kb) (ha : kb.add name role arities f = (.ok e, kb')) :
      Built kb'
  | addFact {kb kb' : KnowledgeBase} {name : Item} {arities : List Item} {f : Formula}
      {e : KnowledgeEntry} (h : Built kb) (ha : kb.addFact name arities f = (.ok e, kb')) :
      Built kb'
  | addRule {kb kb' : KnowledgeBase} {name : Item} {arities : List Item} {f : Formula}
      {e : KnowledgeEntry} (h : Built kb) (ha : kb.addRule name arities f = (.ok e, kb')) :
      Built kb'

/-- Facts and rules are formulas that are added after a look at their shape. -/
theorem Built.induction {P : (kb : KnowledgeBase) → kb.Built → Prop}
    (empty : ∀ version, P { version } (.empty version))
    (add : ∀ {kb kb' name role arities f e} (h : kb.Built) (h' : kb'.Built), P kb h →
      KnowledgeBase.add kb name role arities f = (.ok e, kb') → P kb' h')
    (h : kb.Built) : P kb h := by
  induction h with
  | empty version => exact empty version
  | add h ha ih => exact add h _ ih ha
  | addFact h ha ih =>
    have ha' := ha
    rw [KnowledgeBase.addFact] at ha'
    split at ha'
    · exact add h _ ih ha'
    · simp at ha'
  | addRule h ha ih =>
    have ha' := ha
    rw [KnowledgeBase.addRule] at ha'
    split at ha'
    · exact add h _ ih ha'
    · simp at ha'

/-- What an addition does. -/
theorem add_cases (ha : kb.add name role arities f = (.ok e, kb')) :
    ∃ (sig : Signature) (source : Item) (ds : List Derived), kb.signature.Accepts f sig ∧
      (∀ a ∈ f.atoms, isReserved a.pred = false) ∧ e.formula = f ∧
      ds = (f.clauses sig).1.map (⟨·, some (.premise source role (.str assumptionRule))⟩) ∧
      e.clauses = (kb.store.insertAllMinimal ds).1 ∧ kb'.entries = kb.entries ++ [e] ∧
      kb'.signature = (f.clauses sig).2 ∧ kb'.store = (kb.store.insertAllMinimal ds).2 := by
  rw [KnowledgeBase.add.eq_def] at ha
  dsimp only at ha
  split at ha
  · simp at ha
  · next ds signature hn =>
    obtain ⟨he, rfl⟩ := Prod.mk.inj ha
    obtain rfl := Except.ok.inj he
    obtain ⟨sig, hc, hu⟩ := Signature.normalize_eq_ok rfl hn
    obtain ⟨hds, rfl⟩ := Signature.normalizeUnchecked_eq_ok hu
    obtain ⟨hacc, hres⟩ := Signature.check_accepts hc
    exact ⟨sig, _, ds, hacc, hres rfl, rfl, hds, rfl, rfl, rfl, rfl⟩

/-- A formula that is refused leaves the knowledge base as it was. -/
theorem add_eq_error {fault : NormalFormError}
    (ha : kb.add name role arities f = (.error fault, kb')) : kb' = kb := by
  rw [KnowledgeBase.add.eq_def] at ha
  dsimp only at ha
  split at ha
  · next hn =>
    obtain rfl := Signature.normalize_eq_error hn
    exact (Prod.mk.inj ha).2.symm
  · simp at ha

/-- What holds of every knowledge base. -/
structure Valid (kb : KnowledgeBase) : Prop where
  indexed : kb.store.Exact
  normal : ∀ e ∈ kb.entries, e.IsNormal
  input : ∀ e ∈ kb.entries, ∀ d ∈ e.derived, d.IsInput kb.signature
  unreserved : ∀ e ∈ kb.entries, ∀ d ∈ e.derived, ∀ l ∈ d.clause.literals,
    isReserved l.atom.pred = false
  origin : ∀ f ∈ kb.store.clauses, ∃ e ∈ kb.entries, f.derived ∈ e.derived
  covered : ∀ e ∈ kb.entries, ∀ d ∈ e.derived, ∃ f ∈ kb.store.clauses, f.clause.Covers d.clause

theorem Valid.add (h : kb.Valid) (ha : kb.add name role arities f = (.ok e, kb')) :
    kb'.Valid := by
  obtain ⟨sig, source, ds, hacc, hres, rfl, hds, hcl, hent, hsig, hst⟩ := add_cases ha
  obtain ⟨hred, hsnd⟩ := h.indexed.insertAllMinimal ds
  rw [← hst] at hred
  have hde : e.derived = ds := by rw [KnowledgeEntry.derived, hcl, hsnd]
  have hclauses := hacc.proper.hasClauses hacc.known
  have hgrows : kb.signature.Grows kb'.signature := hsig ▸ hacc.grows.trans hclauses.grows
  -- entries are old ones or the new one
  have hcases : ∀ {P : KnowledgeEntry → Prop}, (∀ e' ∈ kb.entries, P e') → P e →
      ∀ e' ∈ kb'.entries, P e' := by
    intro P hold hnew e' he'
    rw [hent] at he'
    rcases List.mem_append.1 he' with he' | he'
    · exact hold e' he'
    · exact List.mem_singleton.1 he' ▸ hnew
  refine ⟨hred.indexed, hcases h.normal ?_, hcases ?_ ?_, hcases h.unreserved ?_, fun f hf => ?_,
    hcases ?_ ?_⟩
  · refine ⟨sig, hacc.proper, hacc.known, ?_⟩
    rw [hde, hds, List.map_map, Function.comp_def, List.map_id']
  · exact fun e' he' d hd => (h.input e' he' d hd).mono hgrows
  · rw [hde, hds, hsig]
    exact fun d hd => hacc.proper.isInput hacc.known _ _ _ hd
  · rw [hde, hds]
    intro d hd l hl
    obtain ⟨c, hc, rfl⟩ := List.mem_map.1 hd
    obtain ⟨a, hm, hp⟩ := hclauses.preds c hc l hl
    exact hp ▸ hres a hm
  · rw [hent]
    rcases hred.origin f hf with hf | hf
    · obtain ⟨e', he', hd⟩ := h.origin f hf
      exact ⟨e', List.mem_append_left _ he', hd⟩
    · exact ⟨e, List.mem_append_right _ (List.mem_singleton_self _), hde ▸ hf⟩
  · intro e' he' d hd
    obtain ⟨f, hf, hc⟩ := h.covered e' he' d hd
    obtain ⟨g, hg, hc'⟩ := hred.old f hf
    exact ⟨g, hg, hc'.trans hc⟩
  · rw [hde]
    exact hred.new

theorem Built.valid (h : kb.Built) : kb.Valid := by
  induction h using Built.induction with
  | empty version =>
    exact ⟨Store.exact_start {}, by simp, by simp, by simp, by simp [Store.clauses], by simp⟩
  | add _ _ ih ha => exact ih.add ha

/-! ### Structures -/

/-- A structure for the clauses of the knowledge base can be changed into one for the clauses of a
further formula, at new Skolem symbols only. -/
theorem Valid.extend [Nonempty D] {N : Structure D} {sig : Signature} (h : kb.Valid)
    (hN : N.Expands M fun s => s.name ∈ kb.signature.skolems)
    (hsat : ∀ e ∈ kb.entries, ∀ d ∈ e.derived, N.Satisfies d.clause)
    (hacc : kb.signature.Accepts f sig) (hM : M.Models f) :
    ∃ N' : Structure D, N'.Expands M (fun s => s.name ∈ (f.clauses sig).2.skolems) ∧
      (∀ e ∈ kb.entries, ∀ d ∈ e.derived, N'.Satisfies d.clause) ∧
      ∀ c ∈ (f.clauses sig).1, N'.Satisfies c := by
  have hNf : N.Models f := (Formula.models_expands hN hacc.notSkolem).2 hM
  obtain ⟨N', hN', hnew⟩ := hacc.proper.exists_expansion hacc.known hNf
  have hgrows := hacc.grows.trans (hacc.proper.hasClauses hacc.known).grows
  refine ⟨N', ?_, fun e he d hd => ?_, hnew⟩
  · exact (hN'.mono fun s hs => hs.1).trans (hN.mono fun s hs => hgrows.skolems _ hs)
  · refine (hsat e he d hd).of_expands hN' fun s hs => Signature.not_addsSkolem ?_
    exact hacc.grows.contains ((h.input e he d hd).known s hs)

theorem Built.exists_expansion [Nonempty D] (h : kb.Built)
    (hM : ∀ e ∈ kb.entries, M.Models e.formula) :
    ∃ N : Structure D, N.Expands M (fun s => s.name ∈ kb.signature.skolems) ∧
      ∀ e ∈ kb.entries, ∀ d ∈ e.derived, N.Satisfies d.clause := by
  induction h using Built.induction with
  | empty version => exact ⟨M, .refl M _, by simp⟩
  | @add kb kb' name role arities f e hb _ ih ha =>
    obtain ⟨sig, source, ds, hacc, -, rfl, hds, hcl, hent, hsig, -⟩ := add_cases ha
    rw [hent] at hM ⊢
    obtain ⟨N, hN, hsat⟩ := ih fun e' he' => hM e' (List.mem_append_left _ he')
    obtain ⟨N', hN', hold, hnew⟩ := hb.valid.extend hN hsat hacc
      (hM e (List.mem_append_right _ (List.mem_singleton_self _)))
    refine ⟨N', hsig ▸ hN', fun e' he' d hd => ?_⟩
    rcases List.mem_append.1 he' with he' | he'
    · exact hold e' he' d hd
    · obtain rfl := List.mem_singleton.1 he'
      rw [KnowledgeEntry.derived, hcl, (hb.valid.indexed.insertAllMinimal ds).2, hds] at hd
      obtain ⟨c, hc, rfl⟩ := List.mem_map.1 hd
      exact hnew c hc

/-- A structure for the active clauses is one for all stored formulas. -/
theorem Valid.models [Nonempty D] (h : kb.Valid)
    (hM : ∀ f ∈ kb.store.clauses, M.Satisfies f.clause) (he : e ∈ kb.entries) :
    M.Models e.formula := by
  obtain ⟨sig, hf, hk, hcs⟩ := h.normal e he
  refine hf.models_of_clauses hk fun c hc => ?_
  rw [← hcs] at hc
  obtain ⟨d, hd, rfl⟩ := List.mem_map.1 hc
  obtain ⟨f, hact, hcov⟩ := h.covered e he d hd
  exact (hM f hact).of_covers hcov

/-! ### Lists of axioms -/

/-- The knowledge base with one more axiom, if it is accepted. -/
def addAxiom? (kb : KnowledgeBase) (f : Formula) : Option KnowledgeBase :=
  match kb.add .null (.str assumptionRule) [] f with
  | (.ok _, kb) => some kb
  | (.error _, _) => none

theorem addAxiom?_eq_some (h : kb.addAxiom? f = some kb') :
    ∃ e, kb.add .null (.str assumptionRule) [] f = (.ok e, kb') := by
  rw [addAxiom?] at h
  split at h
  · next e kb₁ ha =>
    obtain rfl := Option.some.inj h
    exact ⟨e, ha⟩
  · cases h

/-- The knowledge base of some axioms, if all of them are accepted. -/
def ofAxioms? (fs : List Formula) : Option KnowledgeBase := fs.foldlM addAxiom? {}

theorem formulas_of_foldlM {fs : List Formula} (hb : kb.Built)
    (h : fs.foldlM addAxiom? kb = some kb') :
    kb'.Built ∧ kb'.entries.map KnowledgeEntry.formula =
      kb.entries.map KnowledgeEntry.formula ++ fs := by
  induction fs generalizing kb with
  | nil =>
    obtain rfl := Option.some.inj h
    exact ⟨hb, by simp⟩
  | cons f fs ih =>
    rw [List.foldlM_cons] at h
    obtain ⟨kb₁, hadd, hrest⟩ := Option.bind_eq_some_iff.1 h
    obtain ⟨e, hok⟩ := addAxiom?_eq_some hadd
    obtain ⟨hb', hfs⟩ := ih (hb.add hok) hrest
    obtain ⟨sig, source, ds, -, -, rfl, -, -, hent, -⟩ := add_cases hok
    refine ⟨hb', ?_⟩
    rw [hfs, hent]
    simp

theorem ofAxioms?_eq_some {fs : List Formula} (h : ofAxioms? fs = some kb) :
    kb.Built ∧ kb.entries.map KnowledgeEntry.formula = fs :=
  formulas_of_foldlM (.empty 0) h

end KnowledgeBase

end Elenchus

import Elenchus.Proofs.KnowledgeBases

/-! Minimal knowledge bases: no active clause covers another, whatever is added and reset. -/

namespace Elenchus

universe u

/-! ### Stores -/

namespace Store

variable {s : Store} {f g : Filed} {d : Derived}

/-- No clause is active twice, and no active clause covers another. -/
structure Minimal (s : Store) : Prop where
  nodup : s.active.Nodup
  eq_of_covers : ∀ f ∈ s.clauses, ∀ g ∈ s.clauses, f.clause.Covers g.clause → f = g

theorem minimal_empty : Minimal {} := ⟨List.nodup_nil, by simp [clauses]⟩

theorem Minimal.insertMinimal (h : s.Minimal) (hi : s.Exact) (d : Derived) :
    (s.insertMinimal d).2.Minimal := by
  by_cases hs : s.isSubsumed d.clause = true
  · rw [insertMinimal_of_isSubsumed hs]
    exact h
  · constructor
    · exact (hi.insertMinimal d).indexed.nodup
    · intro f hf g hg hc
      rcases (hi.mem_clauses_insertMinimal hs).1 hf with ⟨hf, -⟩ | rfl
      · rcases (hi.mem_clauses_insertMinimal hs).1 hg with ⟨hg, -⟩ | rfl
        · exact h.eq_of_covers f hf g hg hc
        · exact absurd (isSubsumed_iff.2 ⟨f, hf, hc⟩) hs
      · rcases (hi.mem_clauses_insertMinimal hs).1 hg with ⟨-, hno⟩ | rfl
        · exact absurd hc hno
        · rfl

theorem Minimal.insertAllMinimal (h : s.Minimal) (hi : s.Exact) (ds : List Derived) :
    (s.insertAllMinimal ds).2.Minimal := by
  induction ds generalizing s with
  | nil => exact h
  | cons d ds ih => exact ih (h.insertMinimal hi d) (hi.insertMinimal d).indexed

end Store

/-! ### Knowledge bases -/

namespace KnowledgeBase

variable {kb kb' : KnowledgeBase} {name role : Item} {arities : List Item} {f : Formula}
  {e : KnowledgeEntry} {cs : List Clause}

/-- Additions and resets, of which additions may be refused, lead to the knowledge base, and `cs`
are the clauses that normalizing gave for the formulas added since the last reset. -/
inductive Reached : KnowledgeBase → List Clause → Prop
  | start : Reached {} []
  | add {kb kb' : KnowledgeBase} {cs : List Clause} {name role source : Item}
      {arities : List Item} {f : Formula} {e : KnowledgeEntry} {ds : List Derived}
      {sig : Signature} (h : Reached kb cs) (ha : kb.add name role arities f = (.ok e, kb'))
      (hn : kb.signature.normalize { source, role, arities } f = (.ok ds, sig)) :
      Reached kb' (cs ++ ds.map Derived.clause)
  | refuse {kb kb' : KnowledgeBase} {cs : List Clause} {name role : Item} {arities : List Item}
      {f : Formula} {fault : NormalFormError} (h : Reached kb cs)
      (ha : kb.add name role arities f = (.error fault, kb')) : Reached kb' cs
  | reset {kb : KnowledgeBase} {cs : List Clause} (h : Reached kb cs) : Reached kb.reset []

theorem minimal_add (h : kb.Valid) (hm : kb.store.Minimal)
    (ha : kb.add name role arities f = (.ok e, kb')) : kb'.store.Minimal := by
  obtain ⟨-, -, ds, -, -, -, -, -, -, -, hst⟩ := add_cases ha
  rw [hst]
  exact hm.insertAllMinimal h.indexed ds

/-- An entry has the clauses that normalizing its formula gives, whatever is recorded with them. -/
theorem clauses_of_add {source : Item} {ds : List Derived} {sig : Signature} (h : kb.Valid)
    (ha : kb.add name role arities f = (.ok e, kb'))
    (hn : kb.signature.normalize { source, role, arities } f = (.ok ds, sig)) :
    kb'.entries = kb.entries ++ [e] ∧ e.derived.map Derived.clause = ds.map Derived.clause := by
  rw [KnowledgeBase.add.eq_def] at ha
  dsimp only at ha
  split at ha
  · simp at ha
  · next ds' sig' hn' =>
    obtain ⟨he, rfl⟩ := Prod.mk.inj ha
    obtain rfl := Except.ok.inj he
    obtain ⟨sig₁, hc, hu⟩ := Signature.normalize_eq_ok rfl hn
    obtain ⟨sig₂, hc', hu'⟩ := Signature.normalize_eq_ok rfl hn'
    obtain rfl : sig₁ = sig₂ := (Prod.mk.inj (hc.symm.trans hc')).1
    obtain ⟨rfl, -⟩ := Signature.normalizeUnchecked_eq_ok hu
    obtain ⟨rfl, -⟩ := Signature.normalizeUnchecked_eq_ok hu'
    refine ⟨rfl, ?_⟩
    rw [KnowledgeEntry.derived, (h.indexed.insertAllMinimal _).2]
    simp only [List.map_map, Function.comp_def]

/-- What stands in a knowledge base after any calls: it is one that additions lead to, it is
minimal, and its entries have the clauses that normalizing gave. -/
theorem Reached.built (h : Reached kb cs) :
    kb.Built ∧ kb.store.Minimal ∧
      cs = kb.entries.flatMap fun e => e.derived.map Derived.clause := by
  induction h with
  | start => exact ⟨.empty 0, Store.minimal_empty, rfl⟩
  | add _ ha hn ih =>
    obtain ⟨hb, hm, hcs⟩ := ih
    obtain ⟨hent, hclauses⟩ := clauses_of_add hb.valid ha hn
    refine ⟨hb.add ha, minimal_add hb.valid hm ha, ?_⟩
    rw [hent, List.flatMap_append, ← hcs, List.flatMap_singleton, hclauses]
  | refuse _ ha ih => exact add_eq_error ha ▸ ih
  | reset _ _ => exact ⟨.empty _, Store.minimal_empty, rfl⟩

/-- Every successful addition goes on from what is reached. -/
theorem Reached.exists_add (h : Reached kb cs)
    (ha : kb.add name role arities f = (.ok e, kb')) : ∃ cs', Reached kb' cs' := by
  have hok := ha
  rw [KnowledgeBase.add.eq_def] at hok
  dsimp only at hok
  split at hok
  · simp at hok
  · next hn => exact ⟨_, h.add ha hn⟩

theorem Reached.exists_foldlM {fs : List Formula} (h : Reached kb cs)
    (hfs : fs.foldlM addAxiom? kb = some kb') : ∃ cs', Reached kb' cs' := by
  induction fs generalizing kb cs with
  | nil =>
    obtain rfl := Option.some.inj hfs
    exact ⟨cs, h⟩
  | cons f fs ih =>
    rw [List.foldlM_cons] at hfs
    obtain ⟨kb₁, hadd, hrest⟩ := Option.bind_eq_some_iff.1 hfs
    obtain ⟨e, hok⟩ := addAxiom?_eq_some hadd
    obtain ⟨cs₁, h₁⟩ := h.exists_add hok
    exact ih h₁ hrest

theorem mem_clauses_iff {g : Filed} : g ∈ kb.clauses ↔ g ∈ kb.store.clauses := List.mem_mergeSort

/-- The active clauses are listed by number, each once. -/
theorem clauses_sorted (hi : kb.store.Exact) (hm : kb.store.Minimal) :
    (kb.clauses.map Filed.id).Perm kb.store.active ∧
      kb.clauses.Pairwise fun f g => f.id < g.id := by
  have hperm : (kb.clauses.map Filed.id).Perm kb.store.active := by
    rw [← hi.map_id_clauses]
    exact (List.mergeSort_perm ..).map _
  have hle : kb.clauses.Pairwise fun f g => f.id ≤ g.id := by
    refine (List.pairwise_mergeSort ?_ ?_ kb.store.clauses).imp of_decide_eq_true
    · intro f g h hfg hgh
      simp only [decide_eq_true_eq] at hfg hgh ⊢
      omega
    · intro f g
      simp only [Bool.or_eq_true, decide_eq_true_eq]
      omega
  have hne : kb.clauses.Pairwise fun f g => f.id ≠ g.id :=
    List.pairwise_map.1 (hperm.nodup_iff.2 hm.nodup)
  exact ⟨hperm, (hle.and hne).imp fun h => Nat.lt_of_le_of_ne h.1 h.2⟩

/-- A knowledge base is minimal and loses nothing. After any additions and resets no active clause
covers another, and every clause that normalizing gave since the last reset is covered by an active
clause; so the active clauses have the same structures as all those clauses. They are listed by
ascending number. -/
theorem Reached.minimal (h : Reached kb cs) :
    (∀ f ∈ kb.clauses, ∀ g ∈ kb.clauses, f.clause.Covers g.clause → f = g) ∧
      (∀ c ∈ cs, ∃ f ∈ kb.clauses, f.clause.Covers c) ∧
      (∀ {D : Type u} (M : Structure D),
        (∀ f ∈ kb.clauses, M.Satisfies f.clause) ↔ ∀ c ∈ cs, M.Satisfies c) ∧
      (kb.clauses.map Filed.id).Perm kb.store.active ∧
      (∀ f ∈ kb.clauses, kb.store.arena.Files f) ∧
      kb.clauses.Pairwise fun f g => f.id < g.id := by
  obtain ⟨hb, hm, rfl⟩ := h.built
  have hv := hb.valid
  have hcovered : ∀ c ∈ kb.entries.flatMap fun e => e.derived.map Derived.clause,
      ∃ f ∈ kb.clauses, f.clause.Covers c := by
    intro c hc
    obtain ⟨e, he, hc⟩ := List.mem_flatMap.1 hc
    obtain ⟨d, hd, rfl⟩ := List.mem_map.1 hc
    obtain ⟨f, hf, hcov⟩ := hv.covered e he d hd
    exact ⟨f, mem_clauses_iff.2 hf, hcov⟩
  obtain ⟨hperm, hsorted⟩ := clauses_sorted hv.indexed hm
  refine ⟨fun f hf g hg => ?_, hcovered, fun M => ⟨fun hM c hc => ?_, fun hM f hf => ?_⟩, hperm,
    fun f hf => Store.files_of_mem_clauses (mem_clauses_iff.1 hf), hsorted⟩
  · exact hm.eq_of_covers f (mem_clauses_iff.1 hf) g (mem_clauses_iff.1 hg)
  · obtain ⟨f, hf, hcov⟩ := hcovered c hc
    exact (hM f hf).of_covers hcov
  · -- an active clause is one of those that came in
    obtain ⟨e, he, hd⟩ := hv.origin f (mem_clauses_iff.1 hf)
    exact hM f.clause (List.mem_flatMap.2 ⟨e, he, List.mem_map_of_mem hd⟩)

/-- Zero is less than its successor. -/
def zeroLess : Formula := .atomic ⟨"less", [.const "zero", .app "succ" [.const "zero"]]⟩

/-- Everything is less than its successor. -/
def allLess : Formula := .atomic ⟨"less", [.var "x", .app "succ" [.var "x"]]⟩

-- the general clause takes out the one for zero, and later keeps it out
theorem Reached.minimal_successor :
    ∃ kb cs, Reached kb cs ∧
      cs = [.ofList [.pos ⟨"less", [.const "zero", .app "succ" [.const "zero"]]⟩],
        .ofList [.pos ⟨"less", [.var "x1", .app "succ" [.var "x1"]]⟩],
        .ofList [.pos ⟨"less", [.const "zero", .app "succ" [.const "zero"]]⟩]] ∧
      kb.clauses.map (fun f => (f.id, f.clause)) =
        [(1, .ofList [.pos ⟨"less", [.var "x1", .app "succ" [.var "x1"]]⟩])] ∧
      (∀ c ∈ cs, ∃ f ∈ kb.clauses, f.clause.Covers c) ∧
      ∀ M : Structure Nat,
        (∀ f ∈ kb.clauses, M.Satisfies f.clause) ↔ ∀ c ∈ cs, M.Satisfies c := by
  have heval : ((ofAxioms? [zeroLess, allLess, zeroLess]).map fun kb =>
      (kb.entries.flatMap fun e => e.derived.map Derived.clause,
        kb.clauses.map fun f => (f.id, f.clause))) =
      some ([.ofList [.pos ⟨"less", [.const "zero", .app "succ" [.const "zero"]]⟩],
        .ofList [.pos ⟨"less", [.var "x1", .app "succ" [.var "x1"]]⟩],
        .ofList [.pos ⟨"less", [.const "zero", .app "succ" [.const "zero"]]⟩]],
        [(1, .ofList [.pos ⟨"less", [.var "x1", .app "succ" [.var "x1"]]⟩])]) := by
    decide +kernel
  obtain ⟨kb, hkb, h⟩ := Option.map_eq_some_iff.1 heval
  obtain ⟨hcs, hactive⟩ := Prod.mk.inj h
  obtain ⟨cs, hreached⟩ := Reached.start.exists_foldlM hkb
  obtain ⟨-, -, hbuilt⟩ := hreached.built
  obtain ⟨-, hcovered, hmodels, -⟩ := hreached.minimal
  exact ⟨kb, cs, hreached, hbuilt.trans hcs, hactive, hcovered, hmodels⟩

end KnowledgeBase

end Elenchus

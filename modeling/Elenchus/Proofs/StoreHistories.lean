import Elenchus.Proofs.Minimality

/-! Stores as calls lead to them: candidates and subsumption are found exactly. -/

namespace Elenchus

namespace Store

variable {s s' : Store} {f g : Filed} {d : Derived} {c : Clause} {l m : Literal} {id pos : Nat}
  {a : Arena} {added : List Filed}

/-! ### Histories -/

/-- The stores that calls lead to from one without active clauses over the arena `a`, and the
clauses that were added on the way, with the numbers they were given. A clause that is inserted is
new or one that the arena has. -/
inductive Reached (a : Arena) : List Filed → Store → Prop
  | start : Reached a [] { arena := a }
  | add {added : List Filed} {s : Store} (h : Reached a added s) (d : Derived) :
      Reached a (added ++ [⟨(s.addToArena d).1, d⟩]) (s.addToArena d).2
  | insert {added : List Filed} {s s' : Store} {check : Bool} {d : Derived} {id : Nat}
      (h : Reached a added s) (hi : s.insert check d = (some id, s')) :
      Reached a (added ++ [⟨id, d⟩]) s'
  | refuse {added : List Filed} {s s' : Store} {check : Bool} {d : Derived}
      (h : Reached a added s) (hi : s.insert check d = (none, s')) : Reached a added s'
  | reinsert {added : List Filed} {s : Store} {f : Filed} (h : Reached a added s)
      (hf : s.arena.Files f) (check : Bool) : Reached a added (s.reinsert check f).2
  | remove {added : List Filed} {s s' : Store} {id : Item} (h : Reached a added s)
      (hr : s.removeNumbered id = .ok s') : Reached a added s'
  | clear {added : List Filed} {s : Store} (h : Reached a added s) : Reached a added s.clear

/-- A clause that comes in gets the next number of the arena; a refused one changes nothing. -/
theorem insert_cases (s : Store) (check : Bool) (d : Derived) :
    s.insert check d = (none, s) ∨ s.insert check d = (some s.arena.size, s.withNew d) := by
  rw [Store.insert]
  split
  · exact Or.inl rfl
  · exact Or.inr rfl

theorem reinsert_cases (s : Store) (check : Bool) (f : Filed) :
    (s.reinsert check f).2 = s ∨ (s.reinsert check f).2 = s.activate f := by
  rw [Store.reinsert]
  split
  · exact Or.inl rfl
  · exact Or.inr rfl

theorem removeNumbered_eq_ok {id : Item} (h : s.removeNumbered id = .ok s') :
    ∃ n, s' = s.remove n := by
  obtain ⟨n, -, h⟩ := bind_eq_ok h
  cases n with
  | none => cases h
  | some n => exact ⟨n, (Except.ok.inj h).symm⟩

theorem withNew_arena (s : Store) (d : Derived) : (s.withNew d).arena = (s.arena.add d).2 :=
  activate_arena _ _

/-- No call breaks the index, takes a clause out of the arena or gives it another number. -/
theorem Reached.exact (h : Reached a added s) :
    s.Exact ∧ ∀ f, a.Files f ∨ f ∈ added → s.arena.Files f := by
  -- a clause that has just been added, and all those that were there
  have grow : ∀ {s : Store} {added : List Filed} (d : Derived),
      (∀ f, a.Files f ∨ f ∈ added → s.arena.Files f) →
      ∀ f, a.Files f ∨ f ∈ added ++ [⟨s.arena.size, d⟩] → (s.arena.add d).2.Files f := by
    intro s added d hall f hf
    rw [List.mem_append, ← or_assoc] at hf
    rcases hf with hf | hf
    · exact (hall f hf).add d
    · exact List.mem_singleton.1 hf ▸ Arena.files_add_self _ d
  induction h with
  | start => exact ⟨exact_start a, fun f hf => hf.resolve_right List.not_mem_nil⟩
  | add _ d ih => exact ⟨ih.1.addToArena d, grow d ih.2⟩
  | @insert _ s _ check d _ _ hi ih =>
    rcases insert_cases s check d with hc | hc
    · cases hc.symm.trans hi
    · obtain ⟨hid, rfl⟩ := Prod.mk.inj (hc.symm.trans hi)
      obtain rfl := Option.some.inj hid
      refine ⟨ih.1.withNew d, ?_⟩
      rw [withNew_arena]
      exact grow d ih.2
  | @refuse _ s _ check d _ hi ih =>
    rcases insert_cases s check d with hc | hc
    · obtain rfl := (Prod.mk.inj (hc.symm.trans hi)).2
      exact ih
    · cases hc.symm.trans hi
  | @reinsert _ s f _ hf check ih =>
    rcases reinsert_cases s check f with hc | hc
    · rw [hc]
      exact ih
    · rw [hc, activate_arena]
      exact ⟨ih.1.activate hf, ih.2⟩
  | remove _ hr ih =>
    obtain ⟨n, rfl⟩ := removeNumbered_eq_ok hr
    exact ⟨ih.1.remove n, ih.2⟩
  | clear _ ih => exact ⟨exact_start _, ih.2⟩

/-- The index is exact. After any calls, looking for candidates meets no entry without a clause, and
the candidates for a literal are the literals of active clauses with its predicate, its number of
arguments and the opposite sign, each place once; no bucket is empty or names a clause that is not
active; and the arena has every clause that it had or was given, under the number it had then. -/
theorem Reached.candidates_exact (h : Reached a added s) :
    (∀ l, s.candidates? l = some (s.candidates l) ∧
      ((s.candidates l).map fun x => (x.id, x.position)).Nodup ∧
      ∀ id pos m, ⟨id, pos, m⟩ ∈ s.candidates l ↔
        ∃ f ∈ s.clauses, f.id = id ∧ f.clause.literals[pos]? = some m ∧
          m.atom.pred = l.atom.pred ∧ m.atom.args.length = l.atom.args.length ∧
          m.positive = !l.positive) ∧
      (∀ e ∈ s.index, e.2 ≠ [] ∧ ∀ p ∈ e.2, p.1 ∈ s.active) ∧
      s.clauses.map Filed.id = s.active ∧ s.active.Nodup ∧
      ∀ f, a.Files f ∨ f ∈ added → s.arena.Files f := by
  obtain ⟨hexact, hfiles⟩ := h.exact
  refine ⟨fun l => ⟨(hexact.candidates?_eq l).1, hexact.nodup_candidates l, fun id pos m => ?_⟩,
    fun e he => ⟨?_, fun p hp => ?_⟩, hexact.map_id_clauses, hexact.nodup, hfiles⟩
  · rw [hexact.mem_candidates_iff]
    simp only [Literal.key, Literal.oppositeKey, LiteralKey.mk.injEq]
  · exact (hexact.tidy.buckets e he).1
  · obtain ⟨f, hf, hid, -⟩ := hexact.mem_clauses_of_mem_bucket he hp
    exact hid ▸ (mem_clauses.1 hf).1

/-- A clause with two literals that the index cannot tell apart. -/
def evenOrEven : Derived :=
  ⟨.ofList [.pos ⟨"even", [.const "one"]⟩, .pos ⟨"even", [.const "two"]⟩], none⟩

def nothingEven : Derived := ⟨.ofList [.neg ⟨"even", [.var "x"]⟩], none⟩

-- the first clause is taken out and comes back, so it stands behind the second one
theorem Reached.candidates_exact_evenOrEven :
    ∃ s, Reached {} [⟨0, evenOrEven⟩, ⟨1, nothingEven⟩] s ∧ s.active = [1, 0] ∧
      (s.candidates (.neg ⟨"even", [.const "three"]⟩)).map (fun x => (x.id, x.position)) =
        [(0, 0), (0, 1)] ∧
      (∀ e ∈ s.index, e.2 ≠ [] ∧ ∀ p ∈ e.2, p.1 ∈ s.active) ∧
      ∀ f ∈ [(⟨0, evenOrEven⟩ : Filed), ⟨1, nothingEven⟩], s.arena.Files f := by
  let s₁ : Store := (({} : Store).insert true evenOrEven).2
  let s₂ : Store := (s₁.insert false nothingEven).2
  have h₁ : ({} : Store).insert true evenOrEven = (some 0, s₁) := rfl
  have h₂ : s₁.insert false nothingEven = (some 1, s₂) := rfl
  have h₃ : s₂.removeNumbered (.int 0) = .ok (s₂.remove 0) := rfl
  have h₄ : (s₂.remove 0).arena.Files ⟨0, evenOrEven⟩ := rfl
  have hs := (((Reached.start.insert h₁).insert h₂).remove h₃).reinsert h₄ false
  obtain ⟨-, hbuckets, -, -, hfiles⟩ := hs.candidates_exact
  exact ⟨_, hs, rfl, rfl, hbuckets, fun f hf => hfiles f (Or.inr hf)⟩

/-! ### Subsumption -/

end Store

namespace Clause

variable {c d : Clause}

/-- A substitution of finitely many variables is enough. -/
theorem covers_iff : c.Covers d ↔
    c.length ≤ d.length ∧ ∃ σ : Subst, ∀ l ∈ c.literals, l.subst σ ∈ d.literals := by
  refine ⟨fun h => ⟨h.1, ?_⟩, fun ⟨hl, σ, hσ⟩ => ⟨hl, σ.value, fun l hm => ?_⟩⟩
  · have hs := subsumes_iff.2 h
    rw [subsumes, Bool.and_eq_true] at hs
    obtain ⟨σ, -, hσ⟩ := coversFrom_covers hs.2
    exact ⟨σ, fun l hm => hσ l (List.mem_mergeSort.2 hm)⟩
  · rw [← Literal.subst_eq_inst]
    exact hσ l hm

end Clause

namespace Store

variable {s : Store} {a : Arena} {added : List Filed}

/-- Subsumption is decided exactly. A clause is subsumed if and only if an active clause that is not
longer is mapped into it by some substitution, and the clauses that `c` subsumes backward are the
active clauses, other than the one that `c` is itself, that are not shorter than `c` and that some
substitution maps `c` into. The two clauses may have variables in common. -/
theorem Reached.subsumption_exact (h : Reached a added s) (c : Clause) :
    (s.isSubsumed c = true ↔
      ∃ f ∈ s.clauses, f.clause.length ≤ c.length ∧
        ∃ σ : Subst, ∀ l ∈ f.clause.literals, l.subst σ ∈ c.literals) ∧
      ∀ own : Option Nat, (s.backSubsumed c own).Nodup ∧
        ∀ id, id ∈ s.backSubsumed c own ↔
          own ≠ some id ∧ ∃ f ∈ s.clauses, f.id = id ∧ c.length ≤ f.clause.length ∧
            ∃ σ : Subst, ∀ l ∈ c.literals, l.subst σ ∈ f.clause.literals := by
  have hnodup := fun own => h.exact.1.nodup.sublist (h.exact.1.backSubsumed_sublist c own)
  refine ⟨?_, fun own => ⟨hnodup own, fun id => ⟨fun hid => ?_, ?_⟩⟩⟩
  · rw [isSubsumed_iff]
    simp only [Clause.covers_iff]
  · obtain ⟨f, hf, rfl⟩ := List.mem_map.1 hid
    have hactive : f ∈ s.clauses := (List.mem_filter.1 hf).1
    obtain ⟨hown, hcovers⟩ := (mem_backSubsumed_iff hactive).1 hid
    exact ⟨hown, f, hactive, rfl, Clause.covers_iff.1 hcovers⟩
  · rintro ⟨hown, f, hactive, rfl, hcovers⟩
    exact (mem_backSubsumed_iff hactive).2 ⟨hown, Clause.covers_iff.2 hcovers⟩

/-- Everything is less than its successor. -/
def lessSucc : Derived := ⟨.ofList [.pos ⟨"less", [.var "x", .app "succ" [.var "x"]]⟩], none⟩

/-- The successor of anything odd is less than its own successor. -/
def lessSuccIfOdd : Clause := .ofList
  [.neg ⟨"odd", [.var "x"]⟩,
    .pos ⟨"less", [.app "succ" [.var "x"], .app "succ" [.app "succ" [.var "x"]]]⟩]

def allLess : Clause := .ofList [.pos ⟨"less", [.var "y", .var "x"]⟩]

-- all three clauses have the variable `x`, which is mapped to terms with and without it
theorem Reached.subsumption_exact_lessSucc :
    ∃ s, Reached {} [⟨0, lessSucc⟩] s ∧
      (∃ f ∈ s.clauses, f.clause.length ≤ lessSuccIfOdd.length ∧
        ∃ σ : Subst, ∀ l ∈ f.clause.literals, l.subst σ ∈ lessSuccIfOdd.literals) ∧
      s.backSubsumed allLess none = [0] ∧ s.backSubsumed allLess (some 0) = [] ∧
      ∃ f ∈ s.clauses, f.id = 0 ∧ allLess.length ≤ f.clause.length ∧
        ∃ σ : Subst, ∀ l ∈ allLess.literals, l.subst σ ∈ f.clause.literals := by
  let s : Store := (({} : Store).insert true lessSucc).2
  have hinsert : ({} : Store).insert true lessSucc = (some 0, s) := rfl
  have hs : Reached {} [⟨0, lessSucc⟩] s := Reached.start.insert hinsert
  have hforward : s.isSubsumed lessSuccIfOdd = true := by decide +kernel
  have hbackward : s.backSubsumed allLess none = [0] := by decide +kernel
  have hmem : 0 ∈ s.backSubsumed allLess none := by simp [hbackward]
  refine ⟨_, hs, (hs.subsumption_exact _).1.1 hforward, hbackward, by decide +kernel, ?_⟩
  exact ((((hs.subsumption_exact allLess).2 none).2 0).1 hmem).2

end Store

end Elenchus

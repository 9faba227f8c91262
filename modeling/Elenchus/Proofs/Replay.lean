import Elenchus.Proof.Replay
import Elenchus.Proofs.Inferences

/-!
Every inference can be made again from what its derivation records. The recorded bindings are those
of substitutions, so applying them never fails and gives what the substitution gives.
-/

namespace Elenchus

/-! ### Recorded substitutions -/

namespace Bindings

variable {σ : Subst}

theorem get?_ofSubst (σ : Subst) (x : String) : (ofSubst σ).get? x = (σ.get? x).map .term := by
  simp only [get?, ofSubst, Subst.get?]
  induction σ.bindings with
  | nil => rfl
  | cons b bs ih =>
    obtain ⟨y, t⟩ := b
    rw [List.map_cons, lookup_cons_ite, lookup_cons_ite, ih]
    split <;> rfl

theorem applyTerms_ofSubst {ts : List Term}
    (h : ∀ t ∈ ts, (ofSubst σ).applyTerm t = .ok (.term (t.subst σ))) :
    (ofSubst σ).applyTerms ts = .ok (ts.map fun t => .term (t.subst σ)) := by
  induction ts with
  | nil => rfl
  | cons t ts ih =>
    rw [applyTerms, h t (List.mem_cons_self ..), ih fun u hu => h u (List.mem_cons_of_mem _ hu)]
    rfl

theorem mapM_term (ts : List Term) : (ts.map Item.term).mapM Construct.term = .ok ts := by
  induction ts with
  | nil => rfl
  | cons t ts ih =>
    rw [List.map_cons, List.mapM_cons, ih]
    rfl

@[simp] theorem applyTerm_ofSubst (σ : Subst) (t : Term) :
    (ofSubst σ).applyTerm t = .ok (.term (t.subst σ)) := by
  induction t with
  | var x =>
    rw [applyTerm, get?_ofSubst, Term.subst]
    cases σ.get? x <;> rfl
  | app f ts ih =>
    have hargs : (ts.map fun t => Item.term (t.subst σ)) = (ts.map (Term.subst σ)).map .term := by
      simp
    rw [applyTerm, applyTerms_ofSubst ih, hargs, Term.subst, Term.substList_eq_map, ok_bind,
      mapM_term, ok_bind]
    rfl

@[simp] theorem applyAtom_ofSubst (σ : Subst) (a : Atom) :
    (ofSubst σ).applyAtom a = .ok (a.subst σ) := by
  have hargs : (a.args.map fun t => Item.term (t.subst σ)) =
      (a.args.map (Term.subst σ)).map .term := by
    simp
  rw [applyAtom, applyTerms_ofSubst fun t _ => applyTerm_ofSubst σ t, hargs, ok_bind, mapM_term,
    ok_bind]
  rfl

@[simp] theorem applyLiteral_ofSubst (σ : Subst) (l : Literal) :
    (ofSubst σ).applyLiteral l = .ok (l.subst σ) := by
  rw [applyLiteral, applyAtom_ofSubst]
  rfl

end Bindings

namespace Proof

variable {σ ρ : Subst} {l m : Literal} {ls : List Literal}

@[simp] theorem applied_ofSubst (σ : Subst) (ls : List Literal) :
    applied (.ofSubst σ) ls = .ok (ls.map (Literal.subst σ)) := by
  have hmap : ls.mapM (Bindings.ofSubst σ).applyLiteral = .ok (ls.map (Literal.subst σ)) := by
    induction ls with
    | nil => rfl
    | cons l ls ih =>
      rw [List.mapM_cons, ih, Bindings.applyLiteral_ofSubst]
      rfl
  rw [applied, hmap]
  rfl

theorem agree_ofSubst (h : l.atom.subst σ = m.atom.subst σ) :
    agree (.ofSubst σ) l m = .ok true := by
  simp only [agree, rebuilt, Bindings.applyAtom_ofSubst, Except.mapError, bind, Except.bind, h]
  simp [pure, Except.pure]

/-! ### Recorded positions -/

theorem literalAt_int {i : Nat} (h : ls[i]? = some l) : literalAt ls (.int i) = .ok l := by
  simp [literalAt, Item.int?, at?_ofNat, h]

@[simp] theorem whole?_int (n : Int) : (Item.int n).whole? = some n := by
  simp [Item.whole?, Item.number?, Number.whole?, Number.ceil?, Number.floor?, Number.scaled?]

theorem leaveOut_int (positions : List Nat) (ls : List Literal) :
    leaveOut (positions.map fun (i : Nat) => .int i) ls =
      dropAt (positions.map fun (i : Nat) => (i : Int)) ls := by
  have : (positions.map fun (i : Nat) => Item.int i).filterMap Item.whole? =
      positions.map fun (i : Nat) => (i : Int) := by
    induction positions with
    | nil => rfl
    | cons i is ih => simp [ih]
  rw [leaveOut, this]

/-! ### Inferences -/

section
variable {parents : List Clause} {d : Derivation} {c given partner : Clause} {i j : Nat}

/-- Complements under a substitution have opposite signs and the same atom under it. -/
theorem sign_and_atom (h : m.subst σ = (l.subst σ).negate) :
    l.positive ≠ m.positive ∧ l.atom.subst σ = m.atom.subst σ :=
  Literal.eq_negate_iff.1 h

theorem redoResolution_eq_ok (hi : d.indices = [.int i, .int j])
    (hρ : d.partnerRenaming = some (.ofSubst ρ)) (hl : given.literals[i]? = some l)
    (hm : partner.literals[j]? = some m) (hσ : (m.subst ρ).subst σ = (l.subst σ).negate) :
    redoResolution [given, partner] d (.ofSubst σ) =
      .ok (.ofList ((dropAt [(i : Int)] given.literals ++
        dropAt [(j : Int)] (partner.literals.map (Literal.subst ρ))).map (Literal.subst σ))) := by
  obtain ⟨hsign, hatom⟩ := sign_and_atom hσ
  have hm' : (partner.literals.map (Literal.subst ρ))[j]? = some (m.subst ρ) := by simp [hm]
  have hout : ∀ (k : Nat) (ls : List Literal), leaveOut [.int k] ls = dropAt [(k : Int)] ls :=
    fun k ls => leaveOut_int [k] ls
  rw [redoResolution, hi, hρ]
  simp only [twoPositions, ok_bind, Option.getD_some, applied_ofSubst, literalAt_int hl,
    literalAt_int hm', if_neg hsign, agree_ofSubst hatom, hout]
  rfl

theorem redoFactoring_eq_ok (hi : d.indices = [.int i, .int j]) (hl : c.literals[i]? = some l)
    (hm : c.literals[j]? = some m) (hσ : m.subst σ = l.subst σ) :
    redoFactoring [c] d (.ofSubst σ) =
      .ok (.ofList ((dropAt [(j : Int)] c.literals).map (Literal.subst σ))) := by
  have hsign : ¬ l.positive ≠ m.positive := not_not.2 (congrArg Literal.positive hσ).symm
  have hatom : l.atom.subst σ = m.atom.subst σ := (congrArg Literal.atom hσ).symm
  have hout : leaveOut [.int j] c.literals = dropAt [(j : Int)] c.literals :=
    leaveOut_int [j] c.literals
  rw [redoFactoring, hi]
  simp only [twoPositions, ok_bind, literalAt_int hl, literalAt_int hm, if_neg hsign,
    agree_ofSubst hatom, hout, applied_ofSubst]
  rfl

theorem checkUnits_eq_ok {xs : List Inference.Removal} (h : ∀ x ∈ xs, x.Refutes σ c) :
    checkUnits c (.ofSubst σ) (xs.map fun x => .int x.position) (xs.map fun x => x.unit.clause)
      (xs.map fun x => .ofSubst x.renamed) = .ok () := by
  induction xs with
  | nil => rfl
  | cons x xs ih =>
    obtain ⟨l, m, hl, hm, hσ⟩ := h x (List.mem_cons_self ..)
    obtain ⟨hsign, hatom⟩ := sign_and_atom hσ
    simp only [List.map_cons, checkUnits, hm, literalAt_int hl, ok_bind, rebuilt,
      Bindings.applyLiteral_ofSubst, Except.mapError, if_neg hsign, agree_ofSubst hatom]
    exact ih fun y hy => h y (List.mem_cons_of_mem _ hy)

theorem redoUnitResolution_eq_ok {xs : List Inference.Removal} (hne : xs ≠ [])
    (hi : d.indices = xs.map fun x => .int x.position)
    (hρ : d.renamings = xs.map fun x => .ofSubst x.renamed) (h : ∀ x ∈ xs, x.Refutes σ c) :
    redoUnitResolution (c :: xs.map fun x => x.unit.clause) d (.ofSubst σ) =
      .ok (.ofList ((dropAt (xs.map fun x => (x.position : Int)) c.literals).map
        (Literal.subst σ))) := by
  have hout : leaveOut (xs.map fun x => .int x.position) c.literals =
      dropAt (xs.map fun x => (x.position : Int)) c.literals := by
    have := leaveOut_int (xs.map Inference.Removal.position) c.literals
    simpa only [List.map_map, Function.comp_def] using this
  rw [redoUnitResolution, if_neg (by simp [hi, hρ, hne]), hi, hρ, checkUnits_eq_ok h, ok_bind,
    hout, applied_ofSubst]
  rfl

end

/-- Making an inference again from its parents gives the clause that was inferred. -/
theorem redo_inferred {ps : List Filed} {d : Derived} (h : Inference.Inferred ps d) :
    ps ≠ [] ∧ ∃ e, d.derivation = some e ∧ e.parents = (ps.map fun p => .int p.id) ∧
      redo (ps.map Filed.clause) e = .ok d.clause := by
  cases h with
  | @resolvent given partner i j l m ρ σ depth hl hm hσ =>
    exact ⟨by simp, _, rfl, rfl, redoResolution_eq_ok rfl rfl hl hm hσ⟩
  | @factor c i j l m σ depth _ hl hm hσ =>
    exact ⟨by simp, _, rfl, rfl, redoFactoring_eq_ok rfl hl hm hσ⟩
  | @unitResolvent c xs σ rule depth hrule hne hxs =>
    refine ⟨by simp, _, rfl, by simp [Function.comp_def], ?_⟩
    simp only [List.map_cons, List.map_map]
    rcases hrule with rfl | rfl
    · exact redoUnitResolution_eq_ok hne rfl rfl hxs
    · exact redoUnitResolution_eq_ok hne rfl rfl hxs

end Proof

end Elenchus

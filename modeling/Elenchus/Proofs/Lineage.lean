import Elenchus.Proofs.Consequences
import Elenchus.Proofs.Traces

/-! Where the clauses of a search come from, whatever their variables are called. -/

namespace Elenchus

/-! ### Unification brings in no variables -/

namespace Subst

variable {σ τ : Subst} {P : String → Prop} {s t : Term} {ss ts : List Term} {x : String}

/-- Every variable stands for itself or for a term whose variables have a property. -/
def KeepsTo (P : String → Prop) (σ : Subst) : Prop :=
  ∀ x, σ.value x = .var x ∨ ∀ y ∈ (σ.value x).vars, P y

theorem keepsTo_empty : empty.KeepsTo P := fun _ => Or.inl rfl

theorem KeepsTo.imp {Q : String → Prop} (h : σ.KeepsTo P) (hPQ : ∀ x, P x → Q x) :
    σ.KeepsTo Q :=
  fun x => (h x).imp_right fun hx y hy => hPQ y (hx y hy)

theorem KeepsTo.value (h : σ.KeepsTo P) (hx : P x) : ∀ y ∈ (σ.value x).vars, P y := by
  intro y hy
  rcases h x with he | hv
  · have hyx : y = x := by simpa [he] using hy
    exact hyx ▸ hx
  · exact hv y hy

theorem KeepsTo.subst (h : σ.KeepsTo P) (ht : ∀ y ∈ t.vars, P y) :
    ∀ y ∈ (t.subst σ).vars, P y := by
  intro y hy
  rw [Term.subst_eq_inst] at hy
  obtain ⟨x, hx, hy⟩ := Term.mem_vars_inst.1 hy
  exact h.value (ht x hx) y hy

theorem KeepsTo.literal {l : Literal} (h : σ.KeepsTo P) (hl : ∀ y ∈ l.vars, P y) :
    ∀ y ∈ (l.subst σ).vars, P y := by
  intro y hy
  rw [Literal.subst_eq_inst] at hy
  obtain ⟨x, hx, hy⟩ := Literal.mem_vars_inst.1 hy
  exact h.value (hl x hx) y hy

theorem KeepsTo.bind (h : σ.KeepsTo P) (ht : ∀ y ∈ t.vars, P y) (x : String) :
    (σ.bind x t).KeepsTo P := by
  have hsingle : (single x t).KeepsTo P := by
    intro z
    rw [value_single]
    split
    · exact Or.inr ht
    · exact Or.inl rfl
  intro z
  rw [value_bind]
  by_cases hz : z = x
  · rw [if_pos hz]
    exact Or.inr ht
  · rw [if_neg hz]
    rcases h z with he | hv
    · left
      rw [he, Term.subst_eq_inst, Term.inst_var, value_single, if_neg hz]
    · exact Or.inr (hsingle.subst hv)

theorem unifyListWith_keepsTo {unify : Subst → Term → Term → Option Subst}
    (hu : ∀ σ s t τ, KeepsTo P σ → (∀ y ∈ s.vars, P y) → (∀ y ∈ t.vars, P y) →
      unify σ s t = some τ → τ.KeepsTo P)
    (hσ : σ.KeepsTo P) (hss : ∀ s ∈ ss, ∀ y ∈ s.vars, P y) (hts : ∀ t ∈ ts, ∀ y ∈ t.vars, P y)
    (h : unifyListWith unify σ ss ts = some τ) : τ.KeepsTo P := by
  induction ss generalizing σ ts with
  | nil =>
    cases ts with
    | nil =>
      obtain rfl : σ = τ := by simpa [unifyListWith] using h
      exact hσ
    | cons t ts => simp [unifyListWith] at h
  | cons s ss ih =>
    cases ts with
    | nil => simp [unifyListWith] at h
    | cons t ts =>
      obtain ⟨υ, hυ, h⟩ := Option.bind_eq_some_iff.1 h
      have hhead := hu σ s t υ hσ (hss s (List.mem_cons_self ..)) (hts t (List.mem_cons_self ..)) hυ
      exact ih hhead (fun u hu => hss u (List.mem_cons_of_mem _ hu))
        (fun u hu => hts u (List.mem_cons_of_mem _ hu)) h

theorem unifyWithin_keepsTo {check : Bool} {depth : Nat} (hσ : σ.KeepsTo P)
    (hs : ∀ y ∈ s.vars, P y) (ht : ∀ y ∈ t.vars, P y)
    (h : unifyWithin check depth σ s t = some τ) : τ.KeepsTo P := by
  induction depth generalizing σ τ s t with
  | zero => simp [unifyWithin] at h
  | succ depth ih =>
    have hs' := hσ.subst hs
    have ht' := hσ.subst ht
    rw [unifyWithin] at h
    generalize s.subst σ = s' at h hs'
    generalize t.subst σ = t' at h ht'
    split at h
    · exact Option.some.inj h ▸ hσ
    · split at h
      · split at h
        · cases h
        · exact Option.some.inj h ▸ hσ.bind ht' _
      · split at h
        · cases h
        · exact Option.some.inj h ▸ hσ.bind hs' _
      · split at h
        · refine unifyListWith_keepsTo (fun σ s t τ hσ hs ht h => ih hσ hs ht h) hσ ?_ ?_ h
          · intro u hu y hy
            exact hs' y (by rw [Term.vars_app]; exact List.mem_flatMap.2 ⟨u, hu, hy⟩)
          · intro u hu y hy
            exact ht' y (by rw [Term.vars_app]; exact List.mem_flatMap.2 ⟨u, hu, hy⟩)
        · cases h

theorem unifyAtoms_keepsTo {check : Bool} {a b : Atom} (hσ : σ.KeepsTo P)
    (ha : ∀ y ∈ a.vars, P y) (hb : ∀ y ∈ b.vars, P y) (h : unifyAtoms check σ a b = some τ) :
    τ.KeepsTo P := by
  have args : ∀ c : Atom, (∀ y ∈ c.vars, P y) → ∀ t ∈ c.args, ∀ y ∈ t.vars, P y := by
    intro c hc t ht y hy
    apply hc
    rw [← Atom.vars_term, Atom.term, Term.vars_app]
    exact List.mem_flatMap.2 ⟨t, ht, hy⟩
  rw [unifyAtoms] at h
  split at h
  · exact unifyListWith_keepsTo (fun σ s t τ hσ hs ht h => unifyWithin_keepsTo hσ hs ht h) hσ
      (args a ha) (args b hb) h
  · cases h

section
variable {check : Bool} {l m : Literal} (hσ : σ.KeepsTo P) (hl : ∀ y ∈ l.vars, P y)
  (hm : ∀ y ∈ m.vars, P y)
include hσ hl hm

theorem unifyOpposite_keepsTo (h : unifyOpposite check σ l m = some τ) : τ.KeepsTo P := by
  rw [unifyOpposite] at h
  split at h
  · cases h
  · exact unifyAtoms_keepsTo hσ hl hm h

theorem unifyAlike_keepsTo (h : unifyAlike check σ l m = some τ) : τ.KeepsTo P := by
  rw [unifyAlike] at h
  split at h
  · exact unifyAtoms_keepsTo hσ hl hm h
  · cases h

end

end Subst

/-! ### Names are only ever used up -/

theorem Clause.rename_precedes (c : Clause) (r : Renamer) : r.Precedes (c.rename r).2.2 :=
  Renamer.freshFor_precedes r (sortNames c.vars)

namespace Inference

variable {halt : Halt} {check : Bool}

theorem resolveEach_precedes (given : Filed) (ms : List (Nat × Filed × Nat)) (r : Renamer) :
    r.Precedes (resolveEach halt check given ms r).2 := by
  induction ms generalizing r with
  | nil => exact .refl r
  | cons x ms ih =>
    obtain ⟨i, partner, j⟩ := x
    have hone : r.Precedes (resolve check given partner i j r).2 :=
      resolve_snd check given partner i j r ▸ partner.clause.rename_precedes r
    rw [resolveEach]
    split
    · next d r₁ heq =>
      rw [heq] at hone
      split
      · exact hone
      · exact hone.trans (ih r₁)
    · next o r₁ _ heq =>
      rw [heq] at hone
      exact hone.trans (ih r₁)

theorem tryUnits_precedes {l : Literal} {σ : Subst}
    {next : Subst → Satellite → Renamer → List Derived × Renamer}
    (hnext : ∀ τ s (r : Renamer), r.Precedes (next τ s r).2) (us : List Filed) (r : Renamer) :
    r.Precedes (tryUnits halt check l σ next us r).2 := by
  induction us generalizing r with
  | nil => exact .refl r
  | cons u us ih =>
    have hone := u.clause.rename_precedes r
    rw [tryUnits]
    split
    · split
      · dsimp only
        split
        · next τ _ =>
          have hdeep := hone.trans (hnext τ ⟨u, (u.clause.rename r).2.1⟩ _)
          split
          · exact hdeep
          · exact hdeep.trans (ih _)
        · exact hone.trans (ih _)
      · exact ih r
    · exact ih r

theorem combineFrom_precedes {units : List Filed} {finish : List Satellite → Subst → List Derived}
    (ls : List Literal) (σ : Subst) (chosen : List Satellite) (r : Renamer) :
    r.Precedes (combineFrom halt check units finish ls σ chosen r).2 := by
  induction ls generalizing σ chosen r with
  | nil => exact .refl r
  | cons l ls ih => exact tryUnits_precedes (fun τ s r => ih τ (chosen ++ [s]) r) units r

/-- The hyperresolvents of one nucleus, if it is a nucleus and can use the given clause. -/
def combineOne (halt : Halt) (check : Bool) (given : Filed) (units : List Filed) (n : Filed)
    (r : Renamer) : List Derived × Renamer :=
  if n.clause.literals.all Literal.positive then ([], r)
  else if n.id = given.id then combine halt check n units none r
  else if isPositiveUnit given.clause then combine halt check n units (some given.id) r
  else ([], r)

theorem combineEach_cons (given : Filed) (units : List Filed) (n : Filed) (ns : List Filed)
    (r : Renamer) :
    combineEach halt check given units (n :: ns) r =
      if (combineOne halt check given units n r).1.any halt then
        combineOne halt check given units n r
      else
        ((combineOne halt check given units n r).1 ++
            (combineEach halt check given units ns (combineOne halt check given units n r).2).1,
          (combineEach halt check given units ns (combineOne halt check given units n r).2).2) :=
  rfl

theorem combineOne_precedes (given : Filed) (units : List Filed) (n : Filed) (r : Renamer) :
    r.Precedes (combineOne halt check given units n r).2 := by
  rw [combineOne]
  split
  · exact .refl r
  · split
    · exact combineFrom_precedes _ _ _ r
    · split
      · exact combineFrom_precedes _ _ _ r
      · exact .refl r

theorem combineEach_precedes (given : Filed) (units nuclei : List Filed) (r : Renamer) :
    r.Precedes (combineEach halt check given units nuclei r).2 := by
  induction nuclei generalizing r with
  | nil => exact .refl r
  | cons n ns ih =>
    have hone : r.Precedes (combineOne halt check given units n r).2 :=
      combineOne_precedes given units n r
    rw [combineEach_cons]
    split
    · exact hone
    · exact hone.trans (ih _)

end Inference

/-! ### What the rules make -/

/-- The depth of a clause is a number. -/
def Derived.HasLevel (d : Derived) : Prop := ∃ n, d.depth.number? = some n

theorem Item.number?_ofNumber (n : Number) : (ofNumber n).number? = some n := by
  cases n <;> rfl

theorem Item.exists_lt? {i j : Item} {a b : Number} (hi : i.number? = some a)
    (hj : j.number? = some b) : ∃ less, lt? i j = some less := by
  rw [lt?.eq_def]
  split
  · cases hi
  · cases hi
  · rw [hi, hj]
    exact ⟨_, rfl⟩

/-- The greatest of some numbers is one of them. -/
theorem Item.exists_greatest? {i : Item} {is : List Item} (hi : ∃ n, i.number? = some n)
    (his : ∀ j ∈ is, ∃ n, j.number? = some n) :
    ∃ j n, greatest? i is = some j ∧ j.number? = some n := by
  induction is generalizing i with
  | nil =>
    obtain ⟨n, hn⟩ := hi
    exact ⟨i, n, rfl, hn⟩
  | cons j js ih =>
    obtain ⟨a, ha⟩ := hi
    obtain ⟨⟨b, hb⟩, hjs⟩ := List.forall_mem_cons.1 his
    obtain ⟨less, hless⟩ := exists_lt? ha hb
    rw [greatest?, hless]
    refine ih ?_ hjs
    split
    · exact ⟨b, hb⟩
    · exact ⟨a, ha⟩

namespace Derived

variable {d e : Derived} {ds : List Derived}

theorem HasLevel.hasDepth (h : d.HasLevel) : d.hasDepth = true := by
  obtain ⟨n, hn⟩ := h
  rw [Derived.hasDepth]
  split
  · next heq => simp [heq, Item.number?] at hn
  · rfl

theorem exists_deepest (hd : d.HasLevel) (hds : ∀ c ∈ ds, c.HasLevel) :
    ∃ n, (d.deepest ds).number? = some n := by
  obtain ⟨j, n, hj, hn⟩ := Item.exists_greatest? hd (List.forall_mem_map.2 hds)
  exact ⟨n, by rw [deepest, hj, Option.getD_some, hn]⟩

theorem hasLevel_deepest (he : e.depth = d.deepest ds) (hd : d.HasLevel)
    (hds : ∀ c ∈ ds, c.HasLevel) : e.HasLevel := by
  rw [HasLevel, he]
  exact exists_deepest hd hds

theorem hasLevel_nextDepth (he : e.depth = d.nextDepth ds) (hd : d.HasLevel)
    (hds : ∀ c ∈ ds, c.HasLevel) : e.HasLevel := by
  obtain ⟨n, hn⟩ := exists_deepest hd hds
  refine ⟨n.add (.int 1), ?_⟩
  rw [he, nextDepth, Item.next?, hn, Option.map_some, Option.getD_some, Item.number?_ofNumber]

end Derived

namespace Inference

variable {known known' : Filed → Prop} {r r' : Renamer} {d : Derived} {c u given partner : Filed}
  {halt : Halt} {check : Bool} {l m : Literal} {σ τ : Subst} {x : String}

/-- A variable of a known clause, or a name that is not handed out any more. -/
def Named (known : Filed → Prop) (r : Renamer) (x : String) : Prop :=
  r.Avoids x ∨ ∃ p, known p ∧ x ∈ p.clause.vars

/-- A clause that has known clauses as its parents, a depth if they have one, and no variables but
theirs and names that have been handed out. -/
structure Made (known : Filed → Prop) (r : Renamer) (d : Derived) : Prop where
  parents : ∃ ps : List Filed, (∀ p ∈ ps, known p) ∧
    Arena.parentsOf d = ps.map fun p => .int p.id
  level : (∀ p, known p → p.derived.HasLevel) → d.HasLevel
  named : ∀ l ∈ d.clause.literals, ∀ x ∈ l.vars, Named known r x

theorem Named.mono (h : Named known r x) (hr : r.Precedes r') : Named known r' x :=
  h.imp_left fun ha => ha.mono hr

theorem Made.mono (h : Made known r d) (hr : r.Precedes r') : Made known r' d :=
  ⟨h.parents, h.level, fun l hl x hx => (h.named l hl x hx).mono hr⟩

theorem Made.of_imp (h : Made known r d) (hk : ∀ p, known p → known' p) : Made known' r d := by
  obtain ⟨ps, hps, he⟩ := h.parents
  refine ⟨⟨ps, fun p hp => hk p (hps p hp), he⟩, fun hlevel => ?_, fun l hl x hx => ?_⟩
  · exact h.level fun p hp => hlevel p (hk p hp)
  refine (h.named l hl x hx).imp_right ?_
  rintro ⟨p, hp, hx⟩
  exact ⟨p, hk p hp, hx⟩

theorem named_of_known (hc : known c) (hl : l ∈ c.clause.literals) :
    ∀ x ∈ l.vars, Named known r x :=
  fun _ hx => Or.inr ⟨c, hc, Clause.mem_vars.2 ⟨l, hl, hx⟩⟩

theorem named_of_rename (c : Clause) (r : Renamer) (hl : l ∈ c.literals) :
    ∀ x ∈ (l.subst (c.rename r).2.1).vars, Named known (c.rename r).2.2 x :=
  fun x hx => Or.inl (c.clear_rename r hl x hx)

theorem named_of_ofList {ls : List Literal} (hσ : σ.KeepsTo (Named known r))
    (hls : ∀ l ∈ ls, ∀ x ∈ l.vars, Named known r x) :
    ∀ l ∈ (Clause.ofList (ls.map (Literal.subst σ))).literals, ∀ x ∈ l.vars, Named known r x := by
  intro l hl
  obtain ⟨m, hm, rfl⟩ := List.mem_map.1 (Clause.mem_ofList.1 hl)
  exact hσ.literal (hls m hm)

theorem factors_made (hc : known c) (hd : d ∈ factors check c) : Made known r d := by
  simp only [factors, List.mem_flatMap, List.mem_filterMap, Prod.exists,
    List.mk_mem_zipIdx_iff_getElem?] at hd
  obtain ⟨l, i, hl, m, j, hm, hd⟩ := hd
  split at hd
  · obtain ⟨σ, hσ, rfl⟩ := Option.map_eq_some_iff.1 hd
    have hkeeps : σ.KeepsTo (Named known r) :=
      Subst.unifyAlike_keepsTo Subst.keepsTo_empty (named_of_known hc (List.mem_of_getElem? hl))
        (named_of_known hc (List.mem_of_getElem? hm)) hσ
    refine ⟨⟨[c], by simpa using hc, rfl⟩,
      fun hlevel => Derived.hasLevel_nextDepth rfl (hlevel c hc) (by simp),
      named_of_ofList hkeeps fun k hk => ?_⟩
    exact named_of_known hc (mem_of_mem_dropAt hk)
  · cases hd

/-- Everything in a list of new clauses is made from known ones. -/
def AllMade (known : Filed → Prop) (out : List Derived × Renamer) : Prop :=
  ∀ d ∈ out.1, Made known out.2 d

theorem allMade_nil (known : Filed → Prop) (r : Renamer) : AllMade known ([], r) := by
  intro d hd
  cases hd

theorem AllMade.append {ds es : List Derived} (h : AllMade known (ds, r))
    (h' : AllMade known (es, r')) (hr : r.Precedes r') : AllMade known (ds ++ es, r') := by
  intro d hd
  rcases List.mem_append.1 hd with hd | hd
  · exact (h d hd).mono hr
  · exact h' d hd

/-! ### Resolution -/

theorem mem_of_at? {α : Type} {xs : List α} {i : Int} {a : α} (h : at? xs i = some a) : a ∈ xs := by
  rw [at?] at h
  split at h
  · exact List.mem_of_getElem? h
  · split at h
    · exact List.mem_of_getElem? h
    · cases h

theorem resolve_made (hg : known given) (hp : known partner) {i j : Nat}
    (h : (resolve check given partner i j r).1 = some (some d)) :
    Made known (partner.clause.rename r).2.2 d := by
  rw [resolve] at h
  dsimp only at h
  split at h
  · next l m hl hm =>
    split at h
    · cases h
    · next σ hσ =>
      obtain rfl := Option.some.inj (Option.some.inj h)
      have hgiven : ∀ k ∈ given.clause.literals, ∀ x ∈ k.vars,
          Named known (partner.clause.rename r).2.2 x := fun k hk => named_of_known hg hk
      have hpartner : ∀ k ∈ (partner.clause.rename r).1, ∀ x ∈ k.vars,
          Named known (partner.clause.rename r).2.2 x := by
        intro k hk
        obtain ⟨n, hn, rfl⟩ := List.mem_map.1 hk
        exact named_of_rename partner.clause r hn
      have hkeeps := Subst.unifyOpposite_keepsTo Subst.keepsTo_empty (hgiven l (mem_of_at? hl))
        (hpartner m (mem_of_at? hm)) hσ
      refine ⟨⟨[given, partner], by simp [hg, hp], rfl⟩,
        fun hlevel => Derived.hasLevel_nextDepth rfl (hlevel given hg) (by simpa using hlevel _ hp),
        named_of_ofList hkeeps fun k hk => ?_⟩
      rcases List.mem_append.1 hk with hk | hk
      · exact hgiven k (mem_of_mem_dropAt hk)
      · exact hpartner k (mem_of_mem_dropAt hk)
  · cases h

theorem resolveEach_made (hg : known given) {ms : List (Nat × Filed × Nat)}
    (hms : ∀ x ∈ ms, known x.2.1) : AllMade known (resolveEach halt check given ms r) := by
  induction ms generalizing r with
  | nil => exact allMade_nil known r
  | cons x ms ih =>
    obtain ⟨i, partner, j⟩ := x
    have hp : known partner := hms _ (List.mem_cons_self ..)
    have hsnd := resolve_snd check given partner i j r
    have htail := ih (r := (partner.clause.rename r).2.2) fun x hx =>
      hms x (List.mem_cons_of_mem _ hx)
    rw [resolveEach]
    split
    · next d r₁ heq =>
      have hd : (resolve check given partner i j r).1 = some (some d) := by rw [heq]
      obtain rfl : r₁ = (partner.clause.rename r).2.2 := by rw [← hsnd, heq]
      have hone : AllMade known ([d], (partner.clause.rename r).2.2) := by
        intro e he
        obtain rfl := List.mem_singleton.1 he
        exact resolve_made hg hp hd
      split
      · exact hone
      · exact hone.append htail (resolveEach_precedes given ms _)
    · next o r₁ _ heq =>
      obtain rfl : r₁ = (partner.clause.rename r).2.2 := by rw [← hsnd, heq]
      exact htail

/-! ### Hyperresolution -/

theorem tryUnits_made {next : Subst → Satellite → Renamer → List Derived × Renamer}
    {us : List Filed} (hσ : σ.KeepsTo (Named known r))
    (hl : ∀ x ∈ l.vars, Named known r x) (hus : ∀ u ∈ us, known u)
    (hprec : ∀ τ s (r : Renamer), r.Precedes (next τ s r).2)
    (hnext : ∀ τ s r', r.Precedes r' → known s.unit → τ.KeepsTo (Named known r') →
      AllMade known (next τ s r')) :
    AllMade known (tryUnits halt check l σ next us r) := by
  induction us generalizing r with
  | nil => exact allMade_nil known r
  | cons u us ih =>
    have hu : known u := hus u (List.mem_cons_self ..)
    have hrest : ∀ r', r.Precedes r' → AllMade known (tryUnits halt check l σ next us r') :=
      fun r' hr' => ih (hσ.imp fun _ hx => hx.mono hr') (fun x hx => (hl x hx).mono hr')
        (fun v hv => hus v (List.mem_cons_of_mem _ hv))
        fun τ s r'' hr'' => hnext τ s r'' (hr'.trans hr'')
    rw [tryUnits]
    split
    · next m hm =>
      split
      · have hcopied := u.clause.rename_precedes r
        dsimp only
        split
        · next τ hτ =>
          have hcopy : ∀ x ∈ (m.subst (u.clause.rename r).2.1).vars,
              Named known (u.clause.rename r).2.2 x :=
            named_of_rename u.clause r (by simp [hm])
          have hkeeps := Subst.unifyOpposite_keepsTo (hσ.imp fun _ hx => hx.mono hcopied)
            (fun x hx => (hl x hx).mono hcopied) hcopy hτ
          have hone := hnext τ ⟨u, (u.clause.rename r).2.1⟩ _ hcopied hu hkeeps
          split
          · exact hone
          · exact hone.append (hrest _ (hcopied.trans (hprec _ _ _)))
              (tryUnits_precedes hprec us _)
        · exact hrest _ hcopied
      · exact hrest r (.refl r)
    · exact hrest r (.refl r)

theorem combineFrom_made {finish : List Satellite → Subst → List Derived} {units : List Filed}
    {ls : List Literal} {chosen : List Satellite}
    (hunits : ∀ u ∈ units, known u) (hchosen : ∀ s ∈ chosen, known s.unit)
    (hσ : σ.KeepsTo (Named known r)) (hls : ∀ l ∈ ls, ∀ x ∈ l.vars, Named known r x)
    (hfinish : ∀ chosen σ r', (∀ s ∈ chosen, known s.unit) → σ.KeepsTo (Named known r') →
      AllMade known (finish chosen σ, r')) :
    AllMade known (combineFrom halt check units finish ls σ chosen r) := by
  induction ls generalizing σ chosen r with
  | nil => exact hfinish chosen σ r hchosen hσ
  | cons l ls ih =>
    refine tryUnits_made hσ (hls l (List.mem_cons_self ..)) hunits
      (fun τ s r => combineFrom_precedes ls τ (chosen ++ [s]) r) fun τ s r' hr' hs hτ => ?_
    refine ih (fun v hv => ?_) hτ fun k hk x hx =>
      (hls k (List.mem_cons_of_mem _ hk) x hx).mono hr'
    rcases List.mem_append.1 hv with hv | hv
    · exact hchosen v hv
    · exact List.mem_singleton.1 hv ▸ hs

theorem combine_made {nucleus : Filed} {units : List Filed} {required : Option Nat}
    (hn : known nucleus) (hunits : ∀ u ∈ units, known u) :
    AllMade known (combine halt check nucleus units required r) := by
  refine combineFrom_made hunits (by simp) Subst.keepsTo_empty (fun l hl => ?_)
    fun chosen σ r' hchosen hσ d hd => ?_
  · obtain ⟨⟨l, i⟩, hp, rfl⟩ := List.mem_map.1 hl
    have hmem := List.mk_mem_zipIdx_iff_getElem?.1 (List.mem_filter.1 hp).1
    exact named_of_known hn (List.mem_of_getElem? hmem)
  · dsimp only at hd
    split at hd
    · obtain rfl := List.mem_singleton.1 hd
      refine ⟨⟨nucleus :: chosen.map Satellite.unit, ?_, ?_⟩, fun hlevel => ?_,
        named_of_ofList hσ fun l hl => ?_⟩
      · simpa using ⟨hn, fun s hs => hchosen s hs⟩
      · simp [Arena.parentsOf, hyperresolvent, Function.comp_def]
      · refine Derived.hasLevel_nextDepth rfl (hlevel nucleus hn) fun e he => ?_
        obtain ⟨s, hs, rfl⟩ := List.mem_map.1 he
        exact hlevel s.unit (hchosen s hs)
      · exact named_of_known hn (List.mem_filter.1 hl).1
    · cases hd

theorem combineEach_made {units nuclei : List Filed}
    (hunits : ∀ u ∈ units, known u) (hn : ∀ n ∈ nuclei, known n) :
    AllMade known (combineEach halt check given units nuclei r) := by
  induction nuclei generalizing r with
  | nil => exact allMade_nil known r
  | cons n ns ih =>
    have hkn : known n := hn n (List.mem_cons_self ..)
    have hone : AllMade known (combineOne halt check given units n r) := by
      rw [combineOne]
      split
      · exact allMade_nil known r
      · split
        · exact combine_made hkn hunits
        · split
          · exact combine_made hkn hunits
          · exact allMade_nil known r
    rw [combineEach_cons]
    split
    · exact hone
    · exact hone.append (ih fun m hm => hn m (List.mem_cons_of_mem _ hm))
        (combineEach_precedes given units ns _)

/-! ### Unit deletion -/

theorem unitDeleted_made {f : Filed} {xs : List Deletion} (hf : known f)
    (hxs : ∀ x ∈ xs, known x.unit) : Made known r (unitDeleted f xs) := by
  refine ⟨⟨f :: xs.map Deletion.unit, ?_, ?_⟩, fun hlevel => ?_, fun l hl => ?_⟩
  · simpa using ⟨hf, fun x hx => hxs x hx⟩
  · simp [Arena.parentsOf, unitDeleted, Function.comp_def]
  · refine Derived.hasLevel_deepest rfl (hlevel f hf) fun e he => ?_
    obtain ⟨x, hx, rfl⟩ := List.mem_map.1 he
    exact hlevel x.unit (hxs x hx)
  · exact named_of_known hf (mem_of_mem_dropAt (Clause.mem_ofList.1 hl))

end Inference

/-! ### Rounds -/

namespace Search

open Inference

variable {seeds : List Derived} {s s' : Search} {d : Derived} {f given : Filed}
  {strategy : Strategy}

/-- Clauses may stop waiting or being usable, but nothing is filed and no name is handed out. -/
structure Rests (s s' : Search) : Prop where
  renamer : s'.renamer = s.renamer
  arena : s'.agenda.usable.arena = s.agenda.usable.arena
  waiting : ∀ f ∈ s'.agenda.waiting, f ∈ s.agenda.waiting
  refuted : s'.status = .refuted → s.status = .refuted
  proofId : s'.proofId = s.proofId

/-- Counts and reasons may change. -/
theorem Rests.of_core (hc : s'.core = s.core) : s.Rests s' := by
  simp only [core, Prod.mk.injEq] at hc
  obtain ⟨hr, -, ha, hs, hp⟩ := hc
  exact ⟨hr, by rw [ha], fun f hf => ha ▸ hf, fun h => hs ▸ h, hp⟩

/-- The status may change, but not to a refutation. -/
theorem Rests.of_status (hr : s'.renamer = s.renamer) (ha : s'.agenda = s.agenda)
    (hp : s'.proofId = s.proofId) (hs : s'.status ≠ .refuted) : s.Rests s' :=
  ⟨hr, by rw [ha], fun f hf => ha ▸ hf, fun h => absurd h hs, hp⟩

theorem Rests.trans {s'' : Search} (h : s.Rests s') (h' : s'.Rests s'') : s.Rests s'' :=
  ⟨h'.renamer.trans h.renamer, h'.arena.trans h.arena, fun f hf => h.waiting f (h'.waiting f hf),
    fun hs => h.refuted (h'.refuted hs), h'.proofId.trans h.proofId⟩

theorem Rests.files (h : s.Rests s') : s'.Files f ↔ s.Files f := by
  rw [Files, Files, h.arena]

theorem rests_start (s : Search) : s.Rests { s.start with fault := none } := by
  rw [Search.start]
  split
  · exact .of_status rfl rfl rfl (by simp)
  · exact .of_core rfl

/-- The search when a clause has been selected and taken out of the queue. -/
def select (s : Search) (selector : Selector) (given : Filed) (agenda : Agenda) : Search :=
  takeGiven
    { s.start with
      fault := none
      selector := some (selector.run s.start.agenda.waiting).2 } given agenda

theorem rests_select {selector : Selector} {agenda : Agenda} {i : Nat}
    (ht : s.start.agenda.take? i = some (given, agenda)) :
    s.Rests (s.select selector given agenda) ∧ given ∈ s.agenda.waiting := by
  have hstart := rests_start s
  obtain ⟨f, hf, he⟩ := Option.map_eq_some_iff.1 ht
  obtain ⟨rfl, rfl⟩ := Prod.mk.inj he
  refine ⟨hstart.trans ⟨rfl, rfl, fun g hg => List.mem_of_mem_eraseIdx hg, id, rfl⟩, ?_⟩
  exact hstart.waiting f (List.mem_of_getElem? hf)

theorem rests_makeUsable (s : Search) (given : Filed) : s.Rests (s.makeUsable given) := by
  have harena := makeUsable_arena s given
  obtain ⟨ids, statistics, -, heq⟩ := makeUsable_eq s given
  rw [heq] at harena ⊢
  exact ⟨rfl, harena, fun _ h => h, id, rfl⟩

/-- The next round applies the rules to the clause `given`, and `s'` is the search that they find:
the clause was selected, it is no tautology and not subsumed, and it has become usable. -/
inductive Infers (s : Search) : Filed → Search → Prop
  | intro {selector : Selector} {i : Nat} {given : Filed} {agenda : Agenda}
      (hstatus : s.start.status = .searching)
      (hlimit : Search.limitReached { s.start with fault := none } = .ok none)
      (hselector : s.start.selector = some selector)
      (hi : (selector.run s.start.agenda.waiting).1 = some i)
      (htake : s.start.agenda.take? i = some (given, agenda))
      (htautology : ¬ given.clause.isTautology = true)
      (hsubsumed :
        ¬ (s.select selector given agenda).agenda.usable.isSubsumed given.clause = true) :
      Infers s given ((s.select selector given agenda).makeUsable given)

theorem Infers.rests (h : s.Infers given s') : s.Rests s' ∧ given ∈ s.agenda.waiting := by
  cases h with
  | intro _ _ _ _ htake _ _ =>
    obtain ⟨hrests, hw⟩ := rests_select htake
    exact ⟨hrests.trans (rests_makeUsable _ given), hw⟩

/-- What a round does: the rules are applied to the clause that was selected, or nothing is
inferred. -/
theorem step_cases (s : Search) :
    (∃ given s', s.Infers given s' ∧
      s.step = if (s'.infer given).1.all Derived.hasDepth then
          (s'.infer given).2.keepAll (s'.infer given).1
        else s'.failToInfer given) ∨
    s.Rests s.step := by
  have hstart := rests_start s
  rw [Search.step]
  dsimp only
  split
  · next hstatus =>
    rw [Search.advance]
    split
    · exact Or.inr (hstart.trans (.of_core rfl))
    · exact Or.inr (hstart.trans (.of_status rfl rfl rfl (by simp [exhaust])))
    · exact Or.inr (hstart.trans (.of_core rfl))
    · next selector hlimit hselector =>
      dsimp only
      split
      · next given agenda ht =>
        obtain ⟨i, hi, ht⟩ := Option.bind_eq_some_iff.1 ht
        have hselect : s.Rests (s.select selector given agenda) := (rests_select ht).1
        change _ ∨ s.Rests ((s.select selector given agenda).process given)
        by_cases htaut : given.clause.isTautology = true
        · right
          rw [Search.process, if_pos htaut]
          exact hselect.trans (.of_core rfl)
        · by_cases hsub :
              (s.select selector given agenda).agenda.usable.isSubsumed given.clause = true
          · right
            rw [Search.process, if_neg htaut, if_pos hsub]
            exact hselect.trans (.of_core rfl)
          · left
            exact ⟨given, _, .intro hstatus hlimit hselector hi ht htaut hsub,
              process_eq _ given htaut hsub⟩
      · split
        · exact Or.inr (hstart.trans (.of_status rfl rfl rfl (by simp [exhaust])))
        · exact Or.inr (hstart.trans (.of_status rfl rfl rfl (by simp)))
  · exact Or.inr hstart

/-! ### Searches -/

/-- Every filed clause is a seed or made from clauses that were filed before it. -/
structure Descends (seeds : List Derived) (s : Search) : Prop where
  mark : s.renamer.mark = "_"
  origin : ∀ f, s.Files f → f.derived ∈ seeds ∨
    Made (fun p => s.Files p ∧ p.id < f.id) s.renamer f.derived
  waiting : ∀ f ∈ s.agenda.waiting, s.Files f
  refuted : s.status = .refuted →
    ∃ f, s.proofId = some f.id ∧ s.Files f ∧ isRefutation f.clause = true

/-- A clause that may be filed: a seed, or made from filed clauses. -/
def MayFile (seeds : List Derived) (s : Search) (d : Derived) : Prop :=
  d ∈ seeds ∨ Made s.Files s.renamer d

theorem Descends.rests (h : s.Descends seeds) (hr : s.Rests s') : s'.Descends seeds where
  mark := hr.renamer ▸ h.mark
  origin f hf := by
    simp only [hr.files, hr.renamer]
    exact h.origin f (hr.files.1 hf)
  waiting f hf := hr.files.2 (h.waiting f (hr.waiting f hf))
  refuted hs := by
    obtain ⟨f, hid, hf, href⟩ := h.refuted (hr.refuted hs)
    exact ⟨f, hr.proofId.trans hid, hr.files.2 hf, href⟩

theorem Descends.setRenamer {r : Renamer} (h : s.Descends seeds) (hr : s.renamer.Precedes r) :
    Descends seeds { s with renamer := r } :=
  ⟨hr.mark.trans h.mark, fun f hf => (h.origin f hf).imp_right fun hm => hm.mono hr, h.waiting,
    h.refuted⟩

theorem Evolves.made (h : s.Evolves s') (hd : Made s.Files s.renamer d) :
    Made s'.Files s'.renamer d :=
  (hd.mono h.precedes).of_imp h.files

theorem Rests.evolves (h : s.Rests s') : s.Evolves s' :=
  ⟨fun _ hf => h.files.2 hf, h.renamer ▸ .refl _⟩

theorem Descends.origin_file (h : s.Descends seeds) (hd : s.MayFile seeds d)
    (hf : (s.file d).2.Files f) : f.derived ∈ seeds ∨
      Made (fun p => (s.file d).2.Files p ∧ p.id < f.id) s.renamer f.derived := by
  rcases Arena.files_add_cases hf with hf | rfl
  · exact (h.origin f hf).imp_right fun hm => hm.of_imp fun p hp => ⟨hp.1.add d, hp.2⟩
  · exact hd.imp_right fun hm => hm.of_imp fun p hp => ⟨Arena.Files.add hp d, hp.lt_size⟩

theorem Descends.file (h : s.Descends seeds) (hd : s.MayFile seeds d) :
    (s.file d).2.Descends seeds where
  mark := h.mark
  origin _ hf := h.origin_file hd hf
  waiting f hf := (h.waiting f hf).add d
  refuted hs := by
    obtain ⟨f, hid, hf, href⟩ := h.refuted hs
    exact ⟨f, hid, hf.add d, href⟩

theorem Descends.enqueue (h : s.Descends seeds) (hd : s.MayFile seeds d) :
    (s.enqueue d).Descends seeds where
  mark := h.mark
  origin _ hf := h.origin_file hd hf
  waiting f hf := by
    rcases List.mem_append.1 hf with hf | hf
    · exact (h.waiting f hf).add d
    · rw [List.mem_singleton.1 hf]
      exact Arena.files_add_self _ d
  refuted hs := by
    obtain ⟨f, hid, hf, href⟩ := h.refuted hs
    exact ⟨f, hid, hf.add d, href⟩

theorem Descends.refute (h : s.Descends seeds) (hd : s.MayFile seeds d)
    (href : isRefutation d.clause = true) : (s.refute d).Descends seeds where
  mark := h.mark
  origin _ hf := h.origin_file hd hf
  waiting f hf := (h.waiting f hf).add d
  refuted _ := ⟨⟨s.agenda.usable.arena.size, d⟩, rfl, Arena.files_add_self _ d, href⟩

/-- A clause that is shortened is filed first, so that the shorter one can name it. -/
theorem Descends.shorten (h : s.Descends seeds) (hd : Made s.Files s.renamer d) :
    (s.shorten d).2.Descends seeds ∧ s.Evolves (s.shorten d).2 ∧
      Made (s.shorten d).2.Files (s.shorten d).2.renamer (s.shorten d).1 := by
  rw [Search.shorten]
  split
  · obtain ⟨hp, hx, -⟩ := deletions_deletes s.agenda.usable d.clause s.renamer
      fun id f hf => ((Arena.files_of_filed? hf).1.add d : (s.file d).2.Files f)
    rcases simplify_cases s.agenda.usable d s.renamer with heq | ⟨-, heq⟩ <;> rw [heq]
    · exact ⟨h.setRenamer hp, ⟨fun _ hf => hf, hp⟩, hd.mono hp⟩
    · have hs := (h.file (Or.inr hd)).setRenamer hp
      have he : s.Evolves { (s.file d).2 with
          renamer := (deletions s.agenda.usable d.clause s.renamer).2 } :=
        ⟨fun _ hf => hf.add d, hp⟩
      have hshort : Made (s.file d).2.Files (deletions s.agenda.usable d.clause s.renamer).2
          (unitDeleted ⟨s.agenda.usable.arena.size, d⟩
            (deletions s.agenda.usable d.clause s.renamer).1) :=
        unitDeleted_made (Arena.files_add_self _ d) fun x hm => (hx x hm).known
      dsimp only
      split
      · exact ⟨hs.rests (.of_core rfl), he.congr rfl, hshort⟩
      · exact ⟨hs.rests (.of_core rfl), he.congr rfl, he.made hd⟩
  · exact ⟨h, .refl s, hd⟩

theorem Descends.keepShortened (h : s.Descends seeds) (hd : Made s.Files s.renamer d) :
    (s.keepShortened d).Descends seeds ∧ s.Evolves (s.keepShortened d) := by
  have rest : ∀ s' : Search, s.Rests s' → s'.Descends seeds ∧ s.Evolves s' := fun s' hr =>
    ⟨h.rests hr, hr.evolves⟩
  rw [Search.keepShortened]
  split
  · next href => exact ⟨h.refute (Or.inr hd) href, evolves_refute s d⟩
  · split
    · exact rest _ (.of_core rfl)
    · split
      · exact rest _ (.of_core rfl)
      · exact rest _ (.of_core rfl)
      · split
        · exact rest _ (.of_core rfl)
        · exact ⟨(h.enqueue (Or.inr hd)).rests (.of_core rfl),
            (evolves_enqueue s d).congr rfl⟩

theorem Descends.keep (h : s.Descends seeds) (hd : Made s.Files s.renamer d) :
    (s.keep d).Descends seeds ∧ s.Evolves (s.keep d) := by
  have hrests : s.Rests { s with
      statistics := { s.statistics with generated := s.statistics.generated + 1 } } :=
    .of_core rfl
  obtain ⟨h₂, e₂, hshort⟩ := (h.rests hrests).shorten (hrests.evolves.made hd)
  rw [Search.keep]
  dsimp only
  split
  · exact ⟨h₂, hrests.evolves.trans e₂⟩
  · obtain ⟨h₃, e₃⟩ := h₂.keepShortened hshort
    exact ⟨h₃, (hrests.evolves.trans e₂).trans e₃⟩

theorem Descends.keepAll {ds : List Derived} (h : s.Descends seeds)
    (hds : ∀ d ∈ ds, Made s.Files s.renamer d) : (s.keepAll ds).Descends seeds := by
  induction ds generalizing s with
  | nil => exact h
  | cons d ds ih =>
    obtain ⟨h₁, e₁⟩ := h.keep (hds d (List.mem_cons_self ..))
    rw [Search.keepAll]
    split
    · exact h₁
    · exact ih h₁ fun e he => e₁.made (hds e (List.mem_cons_of_mem _ he))

/-! ### Inferences -/

theorem resolvents_made (hg : s.Files given) (halt : Halt) (check : Bool) :
    AllMade s.Files (resolventsUpTo halt check s.agenda.usable given s.renamer) :=
  resolveEach_made hg fun _ hx => files_of_mem_meetings hx

theorem hyperresolvents_made (s : Search) (given : Filed) (halt : Halt) (check : Bool)
    (r : Renamer) : AllMade s.Files (hyperresolventsUpTo halt check s.agenda.usable given r) :=
  combineEach_made (fun _ hu => Store.files_of_mem_clauses (List.mem_filter.1 hu).1)
    fun _ hn => Store.files_of_mem_clauses hn

section
variable (h : s.Descends seeds)
include h

theorem Descends.infer (hg : s.Files given) :
    (s.infer given).2.Descends seeds ∧
      ∀ d ∈ (s.infer given).1, Made (s.infer given).2.Files (s.infer given).2.renamer d := by
  have hres := resolvents_made hg .never s.strategy.occursCheck
  have hprec : s.renamer.Precedes
      (resolventsUpTo .never s.strategy.occursCheck s.agenda.usable given s.renamer).2 :=
    resolveEach_precedes given _ _
  have hfac : ∀ d ∈ s.factorsOf given, Made s.Files s.renamer d := by
    intro d hd
    rw [factorsOf] at hd
    split at hd
    · exact factors_made hg hd
    · cases hd
  rw [Search.infer]
  simp only [Inference.resolvents, Inference.hyperresolvents]
  generalize resolventsUpTo .never s.strategy.occursCheck s.agenda.usable given s.renamer = out
    at hres hprec ⊢
  obtain ⟨rs, r₁⟩ := out
  have hhyp : ∃ hs r₂, (if s.strategy.hyperresolution then
      hyperresolventsUpTo .never s.strategy.occursCheck s.agenda.usable given r₁
      else ([], r₁)) = (hs, r₂) ∧ r₁.Precedes r₂ ∧ AllMade s.Files (hs, r₂) := by
    split
    · exact ⟨_, _, rfl, combineEach_precedes given _ _ r₁, hyperresolvents_made s given _ _ _⟩
    · exact ⟨_, _, rfl, .refl r₁, allMade_nil _ _⟩
  obtain ⟨hs, r₂, heq, hprec', hhyp⟩ := hhyp
  simp only [heq]
  have hall := hres.append hhyp hprec'
  have hnames := hprec.trans hprec'
  refine ⟨(h.setRenamer hnames).rests (.of_core rfl), fun d hd => ?_⟩
  rw [List.append_assoc] at hd
  rcases List.mem_append.1 hd with hd | hd
  · exact (hfac d hd).mono hnames
  · exact hall d hd

theorem Descends.failToInfer (given : Filed) : (s.failToInfer given).Descends seeds := by
  have hres : s.renamer.Precedes (resolventsUpTo .noDepth s.strategy.occursCheck s.agenda.usable
      given s.renamer).2 := resolveEach_precedes given _ _
  rw [Search.failToInfer]
  dsimp only
  split
  · exact h.rests (.of_core rfl)
  · split
    · exact (h.setRenamer hres).rests (.of_core rfl)
    · exact (h.setRenamer (hres.trans (combineEach_precedes given _ _ _))).rests (.of_core rfl)

theorem Descends.step : s.step.Descends seeds := by
  rcases step_cases s with ⟨given, s', hinfers, heq⟩ | hrests
  · obtain ⟨hrests, hw⟩ := hinfers.rests
    have h' := h.rests hrests
    have hg : s'.Files given := hrests.files.2 (h.waiting given hw)
    obtain ⟨hnext, hmade⟩ := h'.infer hg
    rw [heq]
    split
    · exact hnext.keepAll hmade
    · exact h'.failToInfer given
  · exact h.rests hrests

theorem Descends.stepWithin (rounds : Nat) : (s.stepWithin rounds).Descends seeds := by
  induction rounds generalizing s with
  | zero => exact h
  | succ n ih =>
    rw [Search.stepWithin]
    split
    · exact ih h.step
    · exact h

theorem Descends.run : s.run.Descends seeds := (h.rests (rests_start s)).stepWithin _

theorem Descends.seedAll {ds : List Derived} (hds : ∀ d ∈ ds, d ∈ seeds) :
    (s.seedAll ds).Descends seeds := by
  induction ds generalizing s with
  | nil => exact h
  | cons d ds ih =>
    have hd : s.MayFile seeds d := Or.inl (hds d (List.mem_cons_self ..))
    have hrest : ∀ d ∈ ds, d ∈ seeds := fun e he => hds e (List.mem_cons_of_mem _ he)
    rw [Search.seedAll]
    split
    · next href => exact h.refute hd href
    · split
      · exact ih (h.file hd) hrest
      · exact ih (h.enqueue hd) hrest

theorem Descends.of_subset {seeds' : List Derived} (hsub : ∀ d ∈ seeds, d ∈ seeds') :
    s.Descends seeds' :=
  ⟨h.mark, fun f hf => (h.origin f hf).imp_left (hsub _), h.waiting, h.refuted⟩

end

theorem descends_create (limits : Limits) (selector : Option Selector) (around : Surroundings)
    (strategy : Strategy) :
    Descends [] { limits, selector, around, strategy } :=
  ⟨rfl, fun f hf => by simp [Files, Arena.Files, Arena.get?] at hf, by simp, nofun⟩

theorem Reached.descends (h : Reached strategy seeds s) : s.Descends seeds := by
  induction h with
  | create limits selector around => exact descends_create limits selector around strategy
  | seed _ hs ih =>
    rw [(seed_eq_ok hs).2]
    exact (ih.of_subset fun d hd => List.mem_append_left _ hd).seedAll
      fun d hd => List.mem_append_right _ hd
  | step _ ih => exact ih.step

/-- Seeds without parents lead to clauses whose parents have lower numbers. -/
theorem Descends.ordered (h : s.Descends seeds) (hp : ∀ d ∈ seeds, Arena.parentsOf d = []) :
    s.agenda.usable.arena.Ordered := by
  intro i d hd
  rcases h.origin ⟨i, d⟩ hd with hm | hm
  · exact ⟨[], hp d hm, by simp⟩
  · obtain ⟨ps, hps, he⟩ := hm.parents
    refine ⟨ps.map Filed.id, by simp [he], fun p hp => ?_⟩
    obtain ⟨g, hg, rfl⟩ := List.mem_map.1 hp
    exact (hps g hg).2

/-- If the depths of the seeds are numbers, all depths are. -/
theorem Descends.hasLevel (h : s.Descends seeds) (hseeds : ∀ d ∈ seeds, d.HasLevel)
    (hf : s.Files f) : f.derived.HasLevel := by
  induction hn : f.id using Nat.strong_induction_on generalizing f with
  | _ n ih =>
    rcases h.origin f hf with hm | hm
    · exact hseeds _ hm
    · exact hm.level fun p hp => ih p.id (hn ▸ hp.2) hp.1 rfl

/-- If no seed has a variable that may be handed out, no clause has one that still may be. -/
theorem Descends.clear (h : s.Descends seeds)
    (hseeds : ∀ d ∈ seeds, Renamer.Clear {} d.clause) (hf : s.Files f) :
    s.renamer.Clear f.clause := by
  induction hn : f.id using Nat.strong_induction_on generalizing f with
  | _ n ih =>
    intro l hl x hx
    rcases h.origin f hf with hm | hm
    · exact (hseeds _ hm l hl x hx).mono ⟨h.mark, Nat.zero_le _⟩
    · rcases hm.named l hl x hx with ha | ⟨p, hp, hx⟩
      · exact ha
      · obtain ⟨m, hm, hx⟩ := Clause.mem_vars.1 hx
        exact ih p.id (hn ▸ hp.2) hp.1 rfl m hm x hx

end Search

end Elenchus

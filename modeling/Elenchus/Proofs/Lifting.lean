import Elenchus.Proofs.InferenceRules
import Elenchus.Proofs.Saturation
import Elenchus.Proofs.Stores

/-! The rules find all factors and resolvents, up to the choice of unifiers and names. -/

namespace Elenchus.Inference

open Clause

variable {L : Clause → Prop} {c given partner : Filed} {r : Renamer} {l m : Literal} {i j : Nat}
  {θ η : String → Term}

/-- What is left without the literal at a position are the other literals. -/
theorem mem_dropAt_iff {cl : Clause} (hl : cl.literals[i]? = some l) {k : Literal} :
    k ∈ dropAt [(i : Int)] cl.literals ↔ k ∈ cl.literals ∧ k ≠ l := by
  constructor
  · intro hk
    obtain ⟨n, hn, hne⟩ := mem_dropAt.1 hk
    refine ⟨List.mem_of_getElem? hn, ?_⟩
    rintro rfl
    have hni : n = i :=
      (List.getElem?_inj (List.getElem?_eq_some_iff.1 hn).1 cl.nodup).1 (hn.trans hl.symm)
    simp [hni] at hne
  · rintro ⟨hk, hne⟩
    obtain ⟨n, hn⟩ := List.mem_iff_getElem?.1 hk
    refine mem_dropAt.2 ⟨n, hn, fun hmem => hne ?_⟩
    have hni : n = i := by simpa using hmem
    exact Option.some.inj (hn.symm.trans (hni ▸ hl))

theorem mem_dropAt_map {f : Literal → Literal} {ls : List Literal} {k : Literal} :
    k ∈ dropAt [(j : Int)] (ls.map f) ↔ ∃ n ∈ dropAt [(j : Int)] ls, f n = k := by
  simp only [mem_dropAt, List.getElem?_map, Option.map_eq_some_iff]
  constructor
  · rintro ⟨p, ⟨n, hn, rfl⟩, hp⟩
    exact ⟨n, ⟨p, hn, hp⟩, rfl⟩
  · rintro ⟨n, ⟨p, hn, hp⟩, rfl⟩
    exact ⟨p, ⟨n, hn, rfl⟩, hp⟩

/-- Literals with a common instance have the same key. -/
theorem key_eq_of_inst_eq (h : l.inst θ = m.inst η) : l.key = m.key := by
  obtain ⟨⟨p, ts⟩, b⟩ := l
  obtain ⟨⟨q, us⟩, b'⟩ := m
  simp only [Literal.inst, Atom.inst, Literal.mk.injEq, Atom.mk.injEq] at h
  obtain ⟨⟨rfl, hargs⟩, rfl⟩ := h
  have hlen : ts.length = us.length := by simpa using congrArg List.length hargs
  simp [Literal.key, hlen]

/-! ### Factors -/

theorem exists_factor (hl : c.clause.literals[i]? = some l) (hm : c.clause.literals[j]? = some m)
    (hij : i < j) (heq : l.inst θ = m.inst θ) :
    ∃ d ∈ factors true c, FactorOn c.clause l m d.clause := by
  obtain ⟨σ, hσ, hmgu⟩ := unifyAtoms_of_inst_eq (congrArg Literal.atom heq)
  have hp : (l.inst θ).positive = (m.inst θ).positive := congrArg Literal.positive heq
  simp only [Literal.inst_positive] at hp
  have halike : Subst.unifyAlike true .empty l m = some σ := by
    rw [Subst.unifyAlike, if_pos hp, hσ]
  refine ⟨_, mem_factors.2 ⟨i, j, l, m, hl, hm, hij, key_eq_of_inst_eq heq,
    Option.map_eq_some_iff.2 ⟨σ, halike, rfl⟩⟩, hp, σ.value, hmgu, fun k => ?_⟩
  have hmem : k ∈ (Clause.ofList ((dropAt [(j : Int)] c.clause.literals).map
      (Literal.subst σ))).literals ↔
      ∃ n, (n ∈ c.clause.literals ∧ n ≠ m) ∧ n.inst σ.value = k := by
    simp only [mem_ofList, List.mem_map, mem_dropAt_iff hm, Literal.subst_eq_inst]
  refine hmem.trans ⟨fun ⟨n, hn, hk⟩ => ⟨n, hn.1, hk⟩, fun ⟨n, hn, hk⟩ => ?_⟩
  by_cases hnm : n = m
  · -- the literal that is left out has the same instance as the other one
    have hne : l ≠ m := by
      rintro rfl
      have hji := (List.getElem?_inj (List.getElem?_eq_some_iff.1 hl).1 c.clause.nodup).1
        (hl.trans hm.symm)
      omega
    refine ⟨l, ⟨List.mem_of_getElem? hl, hne⟩, ?_⟩
    rw [← hk, hnm, Literal.inst, Literal.inst, hp, hmgu.unifies]
  · exact ⟨n, ⟨hn, hnm⟩, hk⟩

theorem factorsIn_of_factors (h : ∀ d ∈ factors true c, Redundant L d.clause) :
    FactorsIn L c.clause := by
  rintro e ⟨l, hl, m, hm, hne, he⟩
  obtain ⟨θ, heq⟩ := he.exists_inst_eq
  obtain ⟨i, hi⟩ := List.mem_iff_getElem?.1 hl
  obtain ⟨j, hj⟩ := List.mem_iff_getElem?.1 hm
  have hij : i ≠ j := by
    rintro rfl
    exact hne (Option.some.inj (hi.symm.trans hj))
  rcases Nat.lt_or_gt_of_ne hij with hlt | hlt
  · obtain ⟨d, hd, hfac⟩ := exists_factor hi hj hlt heq
    exact (h d hd).of_covers (hfac.covers he)
  · obtain ⟨d, hd, hfac⟩ := exists_factor hj hi hlt heq.symm
    exact (h d hd).of_covers (hfac.covers he.symm)

/-! ### Resolvents -/

/-- A renaming to new names gives a copy that shares no variable with a clear clause. -/
theorem exists_renamesApart_of_renamed {r' : Renamer} {cl d : Clause} {ρ : Subst}
    (h : Renamer.Renamed r r' d.vars ρ) (hclear : r.Clear cl) :
    ∃ names : String → String, RenamesApart names cl d ∧
      ∀ x ∈ d.vars, ρ.value x = .var (names x) := by
  have hfresh : ∀ x, ∃ y, x ∈ d.vars → ρ.value x = .var y ∧ ¬ r.Avoids y := by
    intro x
    by_cases hx : x ∈ d.vars
    · obtain ⟨y, hy, hnew, -⟩ := h.fresh x hx
      exact ⟨y, fun _ => ⟨hy, hnew⟩⟩
    · exact ⟨x, fun hx' => absurd hx' hx⟩
  choose names hnames using hfresh
  refine ⟨names, ⟨fun x hx y hy heq => ?_, fun x hx hc => ?_⟩, fun x hx => (hnames x hx).1⟩
  · apply h.injective x hx y hy
    rw [(hnames x hx).1, (hnames y hy).1, heq]
  · obtain ⟨k, hk, hxk⟩ := mem_vars.1 hc
    exact (hnames x hx).2 (hclear k hk _ hxk)

theorem exists_resolvent (hclear : r.Clear given.clause)
    (hl : given.clause.literals[i]? = some l) (hm : partner.clause.literals[j]? = some m)
    (heq : m.inst η = (l.inst θ).negate) :
    ∃ d, (resolve true given partner i j r).1 = some (some d) ∧
      ResolventOn given.clause partner.clause l m d.clause := by
  have hren := partner.clause.rename_renamed r
  generalize hρ : (partner.clause.rename r).2.1 = ρ at hren
  obtain ⟨names, hapart, hnames⟩ := exists_renamesApart_of_renamed hren hclear
  have hcopy : ∀ k ∈ partner.clause.literals, k.subst ρ = k.inst fun x => .var (names x) := by
    intro k hk
    rw [Literal.subst_eq_inst]
    exact Literal.inst_congr fun x hx => hnames x (mem_vars.2 ⟨k, hk, hx⟩)
  have hml := List.mem_of_getElem? hm
  obtain ⟨τ, hθ, hη⟩ := hapart.combine θ η
  have hcompl := RenamesApart.complementary (List.mem_of_getElem? hl) hml hθ hη heq
  obtain ⟨hsign, hatom⟩ := Literal.eq_negate_iff.1 hcompl
  simp only [Literal.inst_positive] at hsign
  obtain ⟨σ, hσ, hmgu⟩ := unifyAtoms_of_inst_eq hatom
  have hopposite : Subst.unifyOpposite true .empty l (m.subst ρ) = some σ := by
    rw [hcopy m hml, Subst.unifyOpposite, Literal.inst_positive, if_neg hsign]
    exact hσ
  refine ⟨resolventOf given partner i j ρ σ,
    resolve_fst_eq_some.2 ⟨l, m, σ, hl, hm, hρ ▸ hopposite, hρ ▸ rfl⟩,
    hsign, names, hapart, σ.value, hmgu, fun k => ?_⟩
  simp only [resolventOf, mem_ofList, List.map_append, List.mem_append, List.mem_map,
    mem_dropAt_map, mem_dropAt_iff hl, mem_dropAt_iff hm, Literal.subst_eq_inst σ, and_assoc]
  refine or_congr Iff.rfl ⟨?_, ?_⟩
  · rintro ⟨-, ⟨n, hn, hne, rfl⟩, rfl⟩
    exact ⟨n, hn, hne, by rw [hcopy n hn]⟩
  · rintro ⟨n, hn, hne, rfl⟩
    exact ⟨n.subst ρ, ⟨n, hn, hne, rfl⟩, by rw [hcopy n hn]⟩

/-- Every place on the list is tried, with some later state of the renamer. -/
theorem resolveEach_tries (given : Filed) (r : Renamer) {ms : List (Nat × Filed × Nat)}
    (hx : (i, partner, j) ∈ ms) :
    ∃ r', r.Precedes r' ∧ ∀ d, (resolve true given partner i j r').1 = some (some d) →
      d ∈ (resolveEach .never true given ms r).1 := by
  induction ms generalizing r with
  | nil => simp at hx
  | cons y ms ih =>
    obtain ⟨i', partner', j'⟩ := y
    have hprec : r.Precedes (resolve true given partner' i' j' r).2 := by
      rw [resolve_snd]
      exact (partner'.clause.rename_renamed r).precedes
    rw [resolveEach]
    rcases List.mem_cons.1 hx with he | hx
    · obtain ⟨rfl, rfl, rfl⟩ : i = i' ∧ partner = partner' ∧ j = j' := by simpa using he
      refine ⟨r, .refl r, fun d hd => ?_⟩
      generalize resolve true given partner i j r = out at hd
      obtain ⟨o, r'⟩ := out
      obtain rfl : o = some (some d) := hd
      simp [Halt.never]
    · obtain ⟨r', hr', hd⟩ := ih (resolve true given partner' i' j' r).2 hx
      refine ⟨r', hprec.trans hr', fun d hres => ?_⟩
      have hmem := hd d hres
      generalize resolve true given partner' i' j' r = out at hmem ⊢
      obtain ⟨o, r₁⟩ := out
      cases o with
      | none => exact hmem
      | some o =>
        cases o with
        | none => exact hmem
        | some e => simpa [Halt.never] using Or.inr hmem

/-- If everything that the rule gives is redundant, all resolvents are, in either order. -/
theorem resolvesIn_of_resolvents {s : Store} (hs : s.Exact) (hclear : r.Clear given.clause)
    (hp : partner ∈ s.clauses)
    (h : ∀ d ∈ (resolvents true s given r).1, Redundant L d.clause) :
    ResolvesIn L given.clause partner.clause ∧ ResolvesIn L partner.clause given.clause := by
  have covered : ∀ l ∈ given.clause.literals, ∀ m ∈ partner.clause.literals, ∀ α β e,
      RemainsOf given.clause partner.clause l m α β e → Redundant L e := by
    intro l hl m hm α β e he
    obtain ⟨i, hi⟩ := List.mem_iff_getElem?.1 hl
    obtain ⟨j, hj⟩ := List.mem_iff_getElem?.1 hm
    have hkey : m.key = l.oppositeKey :=
      key_eq_of_inst_eq (he.complementary.trans Literal.inst_negate.symm)
    have hmeet : (i, partner, j) ∈ meetings s given := by
      refine List.mem_flatMap.2 ⟨(l, i), List.mk_mem_zipIdx_iff_getElem?.2 hi, ?_⟩
      refine List.mem_filterMap.2 ⟨_, hs.mem_candidates_iff.2 ⟨partner, hp, rfl, hj, hkey⟩, ?_⟩
      rw [Arena.filed?_of_files (Store.files_of_mem_clauses hp)]
      rfl
    obtain ⟨r', hr', htry⟩ := resolveEach_tries given r hmeet
    obtain ⟨d, hd, hon⟩ :=
      exists_resolvent (hclear.mono hr') hi hj he.complementary
    obtain ⟨α', β', hrem⟩ := hon.remainsOf hl hm
    exact (h d (htry d hd)).of_covers (hrem.covers he)
  refine ⟨?_, ?_⟩ <;> rintro e ⟨l, hl, m, hm, hon⟩ <;> obtain ⟨α, β, he⟩ := hon.remainsOf hl hm
  · exact covered l hl m hm α β e he
  · exact covered m hm l hl β α e he.symm

end Elenchus.Inference

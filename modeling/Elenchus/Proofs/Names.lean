import Elenchus.Clause.Basic
import Elenchus.Proofs.Evaluation
import Mathlib.Data.List.Nodup

/-!
Fresh names. A name is told apart from others by the number at its end and the character before it,
so the names that a renamer hands out differ from each other and from the variables of normal forms.
-/

namespace Elenchus

/-! ### Numbers at the end of a name -/

theorem reverse_dropWhile_numbering (name : String) :
    (∃ c cs, name.toList.reverse.dropWhile isNumbering = c :: cs ∧ isNumbering c = false) ∨
      name.toList.reverse.dropWhile isNumbering = [] := by
  cases h : name.toList.reverse.dropWhile isNumbering with
  | nil => exact Or.inr rfl
  | cons c cs =>
    refine Or.inl ⟨c, cs, rfl, ?_⟩
    have := List.head?_dropWhile_not isNumbering name.toList.reverse
    simpa [h] using this

/-- A stem does not end in a digit or an underscore, unless what stands for an empty one does. -/
theorem nameStem_ends {fallback : String} {d : Char} {ds : List Char}
    (hf : fallback.toList = ds ++ [d]) (hd : isNumbering d = false) (name : String) :
    ∃ cs c, (nameStem fallback name).toList = cs ++ [c] ∧ isNumbering c = false := by
  rcases reverse_dropWhile_numbering name with ⟨c, cs, h, hc⟩ | h
  · refine ⟨cs.reverse, c, ?_, hc⟩
    have : nameStem fallback name = String.ofList (cs.reverse ++ [c]) := by
      rw [nameStem, h, List.reverse_cons]
      split
      · next he => simp at he
      · rfl
    rw [this, String.toList_ofList]
  · refine ⟨ds, d, ?_, hd⟩
    rw [nameStem, h]
    exact hf

theorem toDigits_injective : Function.Injective (Nat.toDigits 10) := by
  intro m n h
  rw [← Nat.ofDigitChars_ten_toDigits (n := m), h, Nat.ofDigitChars_ten_toDigits]

/-- What comes before the digits at the end, and the digits, can be read off. -/
theorem append_digits_inj {cs ds : List Char} {c d : Char} {m n : Nat} (hc : c.isDigit = false)
    (hd : d.isDigit = false)
    (h : cs ++ [c] ++ Nat.toDigits 10 m = ds ++ [d] ++ Nat.toDigits 10 n) : c = d ∧ m = n := by
  have digits : ∀ k : Nat, ∀ e ∈ (Nat.toDigits 10 k).reverse, e.isDigit = true := fun k e he =>
    Nat.isDigit_of_mem_toDigits (by omega) (by omega) (List.mem_reverse.1 he)
  have split : ∀ (k : Nat) (e : Char) (es : List Char), e.isDigit = false →
      (es ++ [e] ++ Nat.toDigits 10 k).reverse.takeWhile Char.isDigit =
        (Nat.toDigits 10 k).reverse ∧
      (es ++ [e] ++ Nat.toDigits 10 k).reverse.dropWhile Char.isDigit = e :: es.reverse := by
    intro k e es he
    have hr : (es ++ [e] ++ Nat.toDigits 10 k).reverse =
        (Nat.toDigits 10 k).reverse ++ e :: es.reverse := by simp
    rw [hr, List.takeWhile_append_of_pos (digits k), List.dropWhile_append_of_pos (digits k)]
    simp [he]
  obtain ⟨t1, d1⟩ := split m c cs hc
  obtain ⟨t2, d2⟩ := split n d ds hd
  rw [h] at t1 d1
  constructor
  · exact (List.cons.inj (d1.symm.trans d2)).1
  · exact toDigits_injective (List.reverse_inj.1 (t1.symm.trans t2))

/-- The shape of the variables of a normal form. -/
def IsStandard (x : String) : Prop := ∃ hint n, x = nameStem "x" hint ++ Nat.repr n

theorem standardName_ends (hint : String) :
    ∃ cs c, (nameStem "x" hint).toList = cs ++ [c] ∧ isNumbering c = false :=
  nameStem_ends (by decide : "x".toList = [] ++ ['x']) (by decide) hint

theorem standardName_inj {h h' : String} {m n : Nat}
    (he : nameStem "x" h ++ Nat.repr m = nameStem "x" h' ++ Nat.repr n) : m = n := by
  obtain ⟨cs, c, h1, hc⟩ := standardName_ends h
  obtain ⟨ds, d, h2, hd⟩ := standardName_ends h'
  have := congrArg String.toList he
  simp only [String.toList_append, h1, h2, Nat.toList_repr] at this
  simp only [isNumbering, Bool.or_eq_false_iff] at hc hd
  exact (append_digits_inj hc.1 hd.1 this).2

/-- If what comes before a mark and digits could be longer by `es`, there would be more characters
that are no digits. -/
theorem append_mark_inj {cs ds es ms : List Char} {d : Char} {m n : Nat} (hd : d.isDigit = false)
    (hes : ds ++ [d] = cs ++ es) (h : ms ++ Nat.toDigits 10 m = es ++ (ms ++ Nat.toDigits 10 n)) :
    m = n := by
  have digits : ∀ k : Nat, (Nat.toDigits 10 k).countP (fun c => !c.isDigit) = 0 := fun k =>
    List.countP_eq_zero.2 fun c hc => by
      simp [Nat.isDigit_of_mem_toDigits (by omega) (by omega) hc]
  have hcount := congrArg (List.countP fun c => !c.isDigit) h
  simp only [List.countP_append, digits] at hcount
  have hnone : ∀ c ∈ es, ¬ (!c.isDigit) = true := List.countP_eq_zero.1 (by omega)
  obtain rfl : es = [] := by
    by_contra hne
    have hlast := congrArg List.getLast? hes
    rw [List.getLast?_append_of_ne_nil _ hne, List.getLast?_concat] at hlast
    exact hnone d (List.mem_of_getLast? hlast.symm) (by simp [hd])
  exact toDigits_injective (List.append_cancel_left h)

/-- The number of a name that was handed out can be read off, whatever the mark. -/
theorem renamedName_inj {h h' mark : String} {m n : Nat}
    (he : nameStem "v" h ++ mark ++ Nat.repr m = nameStem "v" h' ++ mark ++ Nat.repr n) :
    m = n := by
  obtain ⟨cs, c, h1, hc⟩ := nameStem_ends (by decide : "v".toList = [] ++ ['v']) (by decide) h
  obtain ⟨ds, d, h2, hd⟩ := nameStem_ends (by decide : "v".toList = [] ++ ['v']) (by decide) h'
  simp only [isNumbering, Bool.or_eq_false_iff] at hc hd
  have hlist := congrArg String.toList he
  simp only [String.toList_append, Nat.toList_repr, List.append_assoc] at hlist
  rcases List.append_eq_append_iff.1 hlist with ⟨es, hes, hrest⟩ | ⟨es, hes, hrest⟩
  · exact append_mark_inj hd.1 (h2 ▸ hes) hrest
  · exact (append_mark_inj hc.1 (h1 ▸ hes) hrest).symm

theorem standardName_ne_renamed {h s : String} {m n : Nat} :
    nameStem "x" h ++ Nat.repr m ≠ s ++ "_" ++ Nat.repr n := by
  intro he
  obtain ⟨cs, c, h1, hc⟩ := standardName_ends h
  have := congrArg String.toList he
  simp only [String.toList_append, h1, Nat.toList_repr] at this
  simp only [isNumbering, Bool.or_eq_false_iff] at hc
  have he := (append_digits_inj (d := '_') hc.1 (by decide) this).1
  simp [he] at hc

/-! ### Renaming -/

namespace Renamer

variable {r r' : Renamer} {x y : String} {xs : List String}

/-- `x` is none of the names that the renamer can still hand out. -/
def Avoids (r : Renamer) (x : String) : Prop :=
  ∀ hint n, r.counter < n → x ≠ nameStem "v" hint ++ r.mark ++ Nat.repr n

/-- One renamer is an earlier state of another. -/
structure Precedes (r r' : Renamer) : Prop where
  mark : r'.mark = r.mark
  counter : r.counter ≤ r'.counter

theorem Precedes.refl (r : Renamer) : r.Precedes r := ⟨rfl, Nat.le_refl _⟩

theorem Precedes.trans {r'' : Renamer} (h : r.Precedes r') (h' : r'.Precedes r'') :
    r.Precedes r'' :=
  ⟨h'.mark.trans h.mark, Nat.le_trans h.counter h'.counter⟩

theorem Avoids.mono (hx : r.Avoids x) (h : r.Precedes r') : r'.Avoids x := by
  intro hint n hn
  rw [h.mark]
  exact hx hint n (Nat.lt_of_le_of_lt h.counter hn)

theorem avoids_of_isStandard (hm : r.mark = "_") (hx : IsStandard x) : r.Avoids x := by
  obtain ⟨h, m, rfl⟩ := hx
  intro hint n _
  rw [hm]
  exact standardName_ne_renamed

theorem avoids_of_le {hint : String} {n : Nat} (hn : n ≤ r.counter) :
    r.Avoids (nameStem "v" hint ++ r.mark ++ Nat.repr n) := by
  intro hint' m hlt he
  have := renamedName_inj he
  omega

theorem freshFor_precedes (r : Renamer) (xs : List String) : r.Precedes (r.freshFor xs).2 := by
  induction xs generalizing r with
  | nil => exact .refl r
  | cons x xs ih =>
    have h : r.Precedes (r.fresh x).2 := ⟨rfl, Nat.le_succ _⟩
    exact h.trans (ih _)

theorem freshFor_keys (r : Renamer) (xs : List String) :
    (r.freshFor xs).1.map Prod.fst = xs := by
  induction xs generalizing r with
  | nil => rfl
  | cons x xs ih => simp [freshFor, ih]

/-- Every variable gets a name of its own, with a number that was not used before. -/
theorem mem_freshFor {p : String × Term} (h : p ∈ (r.freshFor xs).1) :
    ∃ n, r.counter < n ∧ n ≤ (r.freshFor xs).2.counter ∧
      p.2 = .var (nameStem "v" p.1 ++ r.mark ++ Nat.repr n) := by
  induction xs generalizing r with
  | nil => simp [freshFor] at h
  | cons x xs ih =>
    have hlater := freshFor_precedes (r.fresh x).2 xs
    simp only [freshFor, List.mem_cons] at h ⊢
    rcases h with rfl | h
    · exact ⟨r.counter + 1, by omega, hlater.counter, rfl⟩
    · obtain ⟨n, h1, h2, h3⟩ := ih h
      exact ⟨n, Nat.lt_of_succ_lt h1, h2, h3⟩

theorem freshFor_values_nodup (r : Renamer) (xs : List String) :
    ((r.freshFor xs).1.map Prod.snd).Nodup := by
  induction xs generalizing r with
  | nil => simp [freshFor]
  | cons x xs ih =>
    simp only [freshFor, List.map_cons, List.nodup_cons]
    refine ⟨fun hmem => ?_, ih _⟩
    obtain ⟨p, hp, he⟩ := List.mem_map.1 hmem
    obtain ⟨n, hn, _, hv⟩ := mem_freshFor hp
    rw [hv] at he
    simp only [Renamer.fresh, Term.var.injEq] at he hn
    have := renamedName_inj he
    omega

/-- `ρ` gives the variables `vars` names of their own that `r` hands out on the way to `r'`. -/
structure Renamed (r r' : Renamer) (vars : List String) (ρ : Subst) : Prop where
  precedes : r.Precedes r'
  fresh : ∀ x ∈ vars, ∃ y, ρ.value x = .var y ∧ ¬ r.Avoids y ∧ r'.Avoids y
  injective : ∀ x ∈ vars, ∀ y ∈ vars, ρ.value x = ρ.value y → x = y

theorem lookup_of_mem {ps : List (String × Term)} (hn : (ps.map Prod.fst).Nodup) {t : Term}
    (h : (x, t) ∈ ps) : ps.reverse.lookup x = some t := by
  have hn' : (ps.reverse.map Prod.fst).Nodup := by
    rw [List.map_reverse]
    exact List.nodup_reverse.2 hn
  exact Subst.get?_eq_some_iff (σ := ⟨ps.reverse, hn'⟩) |>.2 (List.mem_reverse.2 h)

theorem value_ofList_of_mem {ps : List (String × Term)} (hn : (ps.map Prod.fst).Nodup) {t : Term}
    (h : (x, t) ∈ ps) : (Subst.ofList ps).value x = t := by
  rw [Subst.value_ofList, lookup_of_mem hn h, Option.getD_some]

theorem value_ofList_of_not_mem {ps : List (String × Term)} (h : x ∉ ps.map Prod.fst) :
    (Subst.ofList ps).value x = .var x := by
  have hnone : ps.reverse.lookup x = none := by
    rw [Option.eq_none_iff_forall_ne_some]
    intro t ht
    exact h (List.mem_map.2 ⟨(x, t), List.mem_reverse.1 (mem_of_lookup_eq_some ht), rfl⟩)
  rw [Subst.value_ofList, hnone, Option.getD_none]

theorem renamingFor_renamed (r : Renamer) (hn : xs.Nodup) :
    Renamed r (r.renamingFor xs).2 xs (r.renamingFor xs).1 := by
  let ys := sortNames xs
  have hperm : ys.Perm xs := List.mergeSort_perm _ _
  have hkeys : ((r.freshFor ys).1.map Prod.fst).Nodup := by
    rw [freshFor_keys]
    exact hperm.nodup_iff.2 hn
  have pair : ∀ x ∈ xs, ∃ t, (x, t) ∈ (r.freshFor ys).1 ∧ (r.renamingFor xs).1.value x = t := by
    intro x hx
    rw [← hperm.mem_iff, ← freshFor_keys r ys] at hx
    obtain ⟨⟨_, t⟩, hp, rfl⟩ := List.mem_map.1 hx
    exact ⟨t, hp, value_ofList_of_mem hkeys hp⟩
  refine ⟨freshFor_precedes r ys, fun x hx => ?_, fun x hx y hy he => ?_⟩
  · obtain ⟨t, hp, hv⟩ := pair x hx
    obtain ⟨n, hlt, hle, ht⟩ := mem_freshFor hp
    have hlater := freshFor_precedes r ys
    refine ⟨_, hv.trans ht, fun ha => ha x n hlt rfl, ?_⟩
    rw [← hlater.mark]
    exact avoids_of_le hle
  · obtain ⟨t, hpx, hvx⟩ := pair x hx
    obtain ⟨u, hpy, hvy⟩ := pair y hy
    have htu : t = u := hvx.symm.trans (he.trans hvy)
    subst htu
    have := List.inj_on_of_nodup_map (freshFor_values_nodup r ys) hpx hpy rfl
    exact congrArg Prod.fst this

end Renamer

/-! ### Names unlike others -/

/-- A name that is longer than all the given ones. -/
def longName : List String → String
  | [] => "x"
  | x :: xs => x ++ longName xs

theorem longName_length_pos (xs : List String) : 0 < (longName xs).length := by
  induction xs with
  | nil => decide
  | cons x xs ih =>
    rw [longName, String.length_append]
    omega

theorem length_lt_longName {xs : List String} {x : String} (h : x ∈ xs) :
    x.length < (longName xs).length := by
  induction xs with
  | nil => cases h
  | cons y xs ih =>
    have hpos := longName_length_pos xs
    rw [longName, String.length_append]
    rcases List.mem_cons.1 h with rfl | h
    · omega
    · have hlt := ih h
      omega

theorem longName_not_mem (xs : List String) : longName xs ∉ xs := fun h =>
  Nat.lt_irrefl _ (length_lt_longName h)

end Elenchus

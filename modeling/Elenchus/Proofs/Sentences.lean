import Elenchus.Proofs.Constituents

/-!
Sentences of the notation: whichever of the many ways to write a formula is taken, and however its
tokens are spaced, the formula is read.
-/

namespace Elenchus

namespace Notation

variable {s s' s₁ s₂ : State} {w : String} {ws ws' : List String} {cs rest : List Char}
  {f g : Formula} {st : List Frame} {k : Kind} {n : Nat} {o : Connective}

/-! ### The grammar -/

namespace Connective

def spellings : Connective → List String
  | .and => ["∧", "&", "/\\", "and"]
  | .or => ["∨", "|", "\\/", "or"]
  | .implies => ["→", "->", "=>"]
  | .iff => ["↔", "<->", "<=>", "iff"]

/-- Implications group to the right, the other connectives to the left. -/
def groupsRight : Connective → Bool
  | .implies => true
  | _ => false

/-- On the side to which a connective groups it may stand again without parentheses. -/
def leftPlace (o : Connective) : Nat := if o.groupsRight then o.level else o.level - 1

def rightPlace (o : Connective) : Nat := if o.groupsRight then o.level - 1 else o.level

end Connective

def notSpellings : List String := ["¬", "~", "!", "not"]

def allSpellings : List String := ["∀", "forall"]

def exSpellings : List String := ["∃", "exists"]

/-- What may stand after a list of variables. -/
def separators : List (List String) := [[], ["."], [":"]]

/-- The tokens are a way to write the formula where only connectives that bind tighter than `n` can
stand without parentheses. -/
inductive Writes : Nat → Formula → List String → Prop
  | atomic {n : Nat} (a : Atom) : Writes n (.atomic a) (Term.app a.pred a.args).tokens
  | not {n : Nat} {f : Formula} {w : String} {ws : List String} (hw : w ∈ notSpellings)
    (h : Writes 5 f ws) : Writes n (.not f) (w :: ws)
  | all {n : Nat} {f : Formula} {w : String} {sep ws : List String} (x : String)
    (xs : List String) (hw : w ∈ allSpellings) (hsep : sep ∈ separators) (h : Writes 5 f ws) :
    Writes n ((x :: xs).foldr (fun y g => .all (.var y) g) f)
      (w :: ((x :: xs).intersperse "," ++ sep ++ ws))
  | ex {n : Nat} {f : Formula} {w : String} {sep ws : List String} (x : String)
    (xs : List String) (hw : w ∈ exSpellings) (hsep : sep ∈ separators) (h : Writes 5 f ws) :
    Writes n ((x :: xs).foldr (fun y g => .ex (.var y) g) f)
      (w :: ((x :: xs).intersperse "," ++ sep ++ ws))
  | join {n : Nat} {f g : Formula} {w : String} {ws ws' : List String} (o : Connective)
    (hn : n < o.level) (hw : w ∈ o.spellings) (hf : Writes o.leftPlace f ws)
    (hg : Writes o.rightPlace g ws') : Writes n (o.join f g) (ws ++ w :: ws')
  | group {n : Nat} {f : Formula} {ws : List String} (h : Writes 0 f ws) :
    Writes n f ("(" :: (ws ++ [")"]))

theorem Writes.mono {m : Nat} (h : Writes n f ws) (hm : m ≤ n) : Writes m f ws := by
  cases h with
  | atomic a => exact .atomic a
  | not hw h => exact .not hw h
  | all x xs hw hsep h => exact .all x xs hw hsep h
  | ex x xs hw hsep h => exact .ex x xs hw hsep h
  | join o hn hw hf hg => exact .join o (by omega) hw hf hg
  | group h => exact .group h

/-! ### Spacing -/

/-- The text is the tokens one after the other, with any space between them. -/
inductive Spaced : List String → List Char → Prop
  | done : Spaced [] []
  | space {c : Char} {ws : List String} {cs : List Char} (hc : isSpace c = true)
    (h : Spaced ws cs) : Spaced ws (c :: cs)
  | token {w : String} {ws : List String} {rest : List Char} (hr : EndsToken w.toList rest)
    (h : Spaced ws rest) : Spaced (w :: ws) (w.toList ++ rest)

/-- However tokens are spaced, the reader takes them one after the other. -/
theorem Takes.reads (h : Takes s ws s') (hcs : Spaced ws cs) : Reads s cs s' [] := by
  induction hcs generalizing s with
  | done =>
    cases h
    exact .done _ []
  | space hc _ ih => exact .space hc (ih h)
  | token hr _ ih =>
    cases h with
    | token ht hs hb h => exact (Walks.single (ht _ hr) hs hb).trans (ih h)

/-- The parts of a text between its spaces. -/
def words (cs : List Char) : List String :=
  ((cs.splitOnP isSpace).filter (!·.isEmpty)).map String.ofList

theorem words_space {c : Char} (hc : isSpace c = true) (cs : List Char) :
    words (c :: cs) = words cs := by
  simp [words, List.splitOnP_cons_eq_if_modifyHead, hc]

theorem words_append {cs : List Char} (hne : cs ≠ []) (hcs : ∀ c ∈ cs, isSpace c = false)
    (hr : ∀ c ∈ rest.head?, isSpace c = true) :
    words (cs ++ rest) = String.ofList cs :: words rest := by
  cases rest with
  | nil => simp [words, List.splitOnP_eq_singleton hcs, hne]
  | cons c rest =>
    have hc := hr c rfl
    rw [words_space hc]
    simp [words, List.splitOnP_append_cons_of_forall_mem hcs c hc rest, hne]

/-- Where a text does not begin with space, it begins with its first word. -/
theorem exists_words_cons {c : Char} (hc : isSpace c = false) (cs : List Char) :
    ∃ w rest, w ≠ [] ∧ c :: cs = w ++ rest ∧ (∀ c ∈ rest.head?, isSpace c = true) ∧
      words (c :: cs) = String.ofList w :: words rest := by
  have hsplit := List.takeWhile_append_dropWhile (p := fun d => !isSpace d) (l := c :: cs)
  have hrest : ∀ d ∈ ((c :: cs).dropWhile fun d => !isSpace d).head?, isSpace d = true := by
    intro d hd
    have hstop := List.head?_dropWhile_not (fun d => !isSpace d) (c :: cs)
    rw [Option.mem_def.1 hd] at hstop
    simpa using hstop
  have hne : (c :: cs).takeWhile (fun d => !isSpace d) ≠ [] := by simp [hc]
  refine ⟨_, _, hne, hsplit.symm, hrest, ?_⟩
  rw [← words_append hne (fun d hd => by simpa using List.mem_takeWhile_imp hd) hrest,
    hsplit]

theorem spaced_words (cs : List Char) : Spaced (words cs) cs := by
  induction hn : cs.length using Nat.strongRecOn generalizing cs with
  | ind n ih =>
    cases cs with
    | nil => exact .done
    | cons c cs =>
      cases hc : isSpace c with
      | true =>
        rw [words_space hc]
        exact .space hc (ih cs.length (by simp [← hn]) cs rfl)
      | false =>
        obtain ⟨w, rest, hw, hcs, hrest, hwords⟩ := exists_words_cons hc cs
        have hends : EndsName rest := fun d hd => isNameChar_of_isSpace (hrest d hd)
        have hlen : rest.length < n := by
          rw [← hn, hcs, List.length_append]
          have := List.length_pos_iff.2 hw
          omega
        rw [hwords, hcs]
        simpa using Spaced.token (w := String.ofList w) (fun _ => hends) (ih _ hlen rest rfl)

/-! ### Places -/

namespace Connective

theorem exists_kind (hw : w ∈ o.spellings) : ∃ k ∈ o.kinds, (w.toList, k) ∈ signs ++ keywords := by
  cases o <;> revert w <;> decide +kernel

theorem places (o : Connective) : 1 ≤ o.cut ∧ o.cut ≤ o.leftPlace + 1 ∧ o.cut ≤ 5 ∧
    o.level ≤ o.leftPlace + 1 ∧ o.level ≤ o.rightPlace + 1 ∧ o.level ≤ 4 := by
  cases o <;> decide

theorem isReadable_join (o : Connective) (f g : Formula) :
    (o.join f g).isReadable = (f.isReadable && g.isReadable) := by
  cases o <;> rfl

theorem level_lt_cut {o' : Connective} (h : o.rightPlace < o'.level) : o.level < o'.cut := by
  cases o <;> cases o' <;> revert h <;> decide

end Connective

/-- No connective that can stand in a place of this level closes the innermost frame. -/
def Shields (n : Nat) (st : List Frame) : Prop :=
  ∀ fr ∈ st.head?, ∀ o : Connective, n < o.level → fr.level < o.cut

theorem Shields.mono {m : Nat} (h : Shields n st) (hm : n ≤ m) : Shields m st :=
  fun fr hfr o ho => h fr hfr o (by omega)

/-- Where a unary formula has to stand, there is no such connective. -/
theorem shields_unary (st : List Frame) : Shields 5 st := by
  intro fr _ o ho
  have := o.places
  omega

theorem Shields.settle_eq (h : Shields n st) (ho : n < o.level) (f : Formula) :
    settle o.cut f st = (f, st) := by
  cases st with
  | nil => rfl
  | cons fr st =>
    have := h fr rfl o ho
    rw [settle, if_neg (by omega)]

/-! ### Sentences -/

/-- Taking the tokens of a formula in a place of some level. -/
def TakesFormula (n : Nat) (f : Formula) (ws : List String) : Prop :=
  ∀ s st, Begins s st → Shields n st → ∃ s', Takes s ws s' ∧ Stands s' n f st

theorem takes_atomic {a : Atom} (h : (Formula.atomic a).isReadable = true) (n : Nat) :
    TakesFormula n (.atomic a) (Term.app a.pred a.args).tokens := by
  obtain ⟨p, us⟩ := a
  simp only [Formula.isReadable, Bool.and_eq_true, Term.areReadable_iff] at h
  obtain ⟨hp, hus⟩ := h
  intro s st hb _
  cases us with
  | nil => exact ⟨_, hb.predicate hp, .atomic ⟨p, []⟩, st, rfl, fun _ _ _ => rfl⟩
  | cons u us =>
    obtain ⟨hu, hus⟩ := List.forall_mem_cons.1 hus
    have hargs := takes_args (takes_term hu) (fun v hv => takes_term (hus v hv)) [] ⟨p, []⟩ st
    rw [pushArgs_atom] at hargs
    have hlpar : Takes (.afterName p st) ["("] (.term [] ⟨p, []⟩ st) :=
      .spelled (k := .lpar) (by decide) rfl rfl rfl
    exact ⟨_, (hb.predicate hp).trans (hlpar.trans hargs), .atomic ⟨p, u :: us⟩, st, rfl,
      fun _ _ _ => rfl⟩

/-- A list of variables. -/
theorem takes_variables {x : String} {xs : List String} (hx : isVariable x = true)
    (hxs : xs.all isVariable = true) (q : Bool) (ys : List String) (st : List Frame) :
    Takes (.binder q ys st) ((x :: xs).intersperse ",") (.afterBinder q (ys ++ x :: xs) st) := by
  have hname : ∀ y ys, isVariable y = true →
      Takes (.binder q ys st) [y] (.afterBinder q (ys ++ [y]) st) := by
    intro y ys hy
    simp only [isVariable, Bool.and_eq_true] at hy
    exact .onlyName hy.1 (fun _ => rfl) (by simp [State.step]) hy.2
  induction xs generalizing x ys with
  | nil => exact hname x ys hx
  | cons z zs ih =>
    rw [List.all_cons, Bool.and_eq_true] at hxs
    have hcomma : Takes (.afterBinder q (ys ++ [x]) st) [","] (.binder q (ys ++ [x]) st) :=
      .spelled (k := .comma) (by decide) rfl rfl rfl
    have hrest := ih hxs.1 hxs.2 (ys ++ [x])
    rw [List.append_assoc] at hrest
    exact (hname x ys hx).trans (hcomma.trans hrest)

/-- The part of a quantified formula after the quantifier. -/
theorem takes_binder {x : String} {xs sep : List String} (hx : (x :: xs).all isVariable = true)
    (hsep : sep ∈ separators) (hf : TakesFormula 5 f ws) (q : Bool) (st : List Frame) (n : Nat) :
    ∃ s, Takes (.binder q [] st) ((x :: xs).intersperse "," ++ sep ++ ws) s ∧
      Stands s n ((State.quantifier q (x :: xs)).close f) st := by
  have hlevel : (State.quantifier q (x :: xs)).level = 5 := by cases q <;> rfl
  -- with or without a separator, a formula begins after the variables
  obtain ⟨s₁, hs₁, hb₁⟩ : ∃ s₁, Takes (.afterBinder q (x :: xs) st) sep s₁ ∧
      Begins s₁ (State.quantifier q (x :: xs) :: st) := by
    simp only [separators, List.mem_cons, List.not_mem_nil, or_false] at hsep
    rcases hsep with rfl | rfl | rfl
    · exact ⟨_, .done _, Or.inr ⟨q, x :: xs, st, rfl, rfl⟩⟩
    · exact ⟨_, .spelled (k := .separator) (by decide) rfl rfl rfl, Or.inl rfl⟩
    · exact ⟨_, .spelled (k := .separator) (by decide) rfl rfl rfl, Or.inl rfl⟩
  obtain ⟨s₂, hs₂, hst₂⟩ := hf s₁ _ hb₁ (shields_unary _)
  rw [List.all_cons, Bool.and_eq_true] at hx
  exact ⟨s₂, ((takes_variables hx.1 hx.2 q [] st).trans hs₁).trans hs₂, hst₂.unary hlevel n⟩

theorem takes_join (hn : n < o.level) (hw : w ∈ o.spellings)
    (hf : TakesFormula o.leftPlace f ws) (hg : TakesFormula o.rightPlace g ws') :
    TakesFormula n (o.join f g) (ws ++ w :: ws') := by
  obtain ⟨-, hcut, hcut5, hleft, hright, -⟩ := o.places
  obtain ⟨k, hk, hspell⟩ := Connective.exists_kind hw
  have hconn := o.isConnective_of_mem hk
  intro s st hb hst
  obtain ⟨s₁, hs₁, g₁, st₁, hst₁, hset₁⟩ := hf s st hb (hst.mono (by omega))
  -- the connective closes what is open on the left side and nothing else
  have hsign : Takes s₁ [w] (.formula (o.frame f :: st)) := by
    have hsettle : settle o.cut g₁ st₁ = (f, st) := by
      rw [hset₁ _ hcut5 hcut]
      exact hst.settle_eq hn f
    have hlpar : k ≠ .lpar := by rintro rfl; cases hconn
    refine .spelled hspell (State.expecting_of_standing hst₁ (Or.inl hconn)) ?_
      (State.admits_of_standing hst₁)
    rw [State.step_of_standing hst₁ hlpar, o.goOn_of_mem hk, hsettle]
  have hshields : Shields o.rightPlace (o.frame f :: st) := by
    rintro fr ⟨⟩ o' ho'
    rw [o.level_frame]
    exact Connective.level_lt_cut ho'
  obtain ⟨s₂, hs₂, g₂, st₂, hst₂, hset₂⟩ := hg _ (o.frame f :: st) (Or.inl rfl) hshields
  refine ⟨s₂, hs₁.trans (hsign.trans hs₂), g₂, st₂, hst₂, fun j hj hjn => ?_⟩
  rw [hset₂ j hj (by omega), settle, o.level_frame, if_pos (by omega), o.close_frame]

theorem takes_group (h : TakesFormula 0 f ws) (n : Nat) :
    TakesFormula n f ("(" :: (ws ++ [")"])) := by
  intro s st hb _
  have hlpar : Takes s ["("] (.formula (.group :: st)) :=
    .spelled (k := .lpar) (by decide) (hb.allows rfl) (hb.step rfl) hb.admits
  have hshields : Shields 0 (.group :: st) := by
    rintro fr ⟨⟩ o -
    exact o.places.1
  obtain ⟨s₁, hs₁, g₁, st₁, hst₁, hset₁⟩ := h _ (.group :: st) (Or.inl rfl) hshields
  have hrpar : Takes s₁ [")"] (.afterFormula f st) := by
    have hsettle : settle 1 g₁ st₁ = (f, .group :: st) := hset₁ 1 (by omega) (by omega)
    exact .spelled (k := .rpar) (by decide) (State.expecting_of_standing hst₁ (Or.inr rfl))
      (State.step_rpar hst₁ hsettle) (State.admits_of_standing hst₁)
  exact ⟨_, hlpar.trans (hs₁.trans hrpar), f, st, rfl, fun _ _ _ => rfl⟩

theorem Begins.takesNot (hb : Begins s st) (hw : w ∈ notSpellings) :
    Takes s [w] (.formula (.not :: st)) := by
  simp only [notSpellings, List.mem_cons, List.not_mem_nil, or_false] at hw
  rcases hw with rfl | rfl | rfl | rfl
  · exact hb.spelled (k := .notSign) (by decide) rfl rfl
  · exact hb.spelled (k := .notSign) (by decide) rfl rfl
  · exact hb.spelled (k := .notSign) (by decide) rfl rfl
  · exact hb.spelled (k := .notWord) (by decide) rfl rfl

theorem Begins.takesAll (hb : Begins s st) (hw : w ∈ allSpellings) :
    Takes s [w] (.binder true [] st) := by
  simp only [allSpellings, List.mem_cons, List.not_mem_nil, or_false] at hw
  rcases hw with rfl | rfl
  · exact hb.spelled (k := .allSign) (by decide) rfl rfl
  · exact hb.spelled (k := .allWord) (by decide) rfl rfl

theorem Begins.takesEx (hb : Begins s st) (hw : w ∈ exSpellings) :
    Takes s [w] (.binder false [] st) := by
  simp only [exSpellings, List.mem_cons, List.not_mem_nil, or_false] at hw
  rcases hw with rfl | rfl
  · exact hb.spelled (k := .exSign) (by decide) rfl rfl
  · exact hb.spelled (k := .exWord) (by decide) rfl rfl

theorem Writes.takes (h : Writes n f ws) (hf : f.isReadable = true) : TakesFormula n f ws := by
  induction h with
  | atomic a => exact takes_atomic hf _
  | not hw _ ih =>
    intro s st hb _
    obtain ⟨s₁, hs₁, hst₁⟩ := ih hf _ (.not :: st) (Or.inl rfl) (shields_unary _)
    exact ⟨s₁, (hb.takesNot hw).trans hs₁, hst₁.unary rfl _⟩
  | all x xs hw hsep _ ih =>
    rw [isReadable_foldr (fun _ _ => rfl), Bool.and_eq_true] at hf
    intro s st hb _
    obtain ⟨s₁, hs₁, hst₁⟩ := takes_binder hf.1 hsep (ih hf.2) true st _
    exact ⟨s₁, (hb.takesAll hw).trans hs₁, hst₁⟩
  | ex x xs hw hsep _ ih =>
    rw [isReadable_foldr (fun _ _ => rfl), Bool.and_eq_true] at hf
    intro s st hb _
    obtain ⟨s₁, hs₁, hst₁⟩ := takes_binder hf.1 hsep (ih hf.2) false st _
    exact ⟨s₁, (hb.takesEx hw).trans hs₁, hst₁⟩
  | join o hn hw _ _ ihf ihg =>
    rw [o.isReadable_join, Bool.and_eq_true] at hf
    exact takes_join hn hw (ihf hf.1) (ihg hf.2)
  | group _ ih => exact takes_group (ih hf) _

/-- From every way to write a readable formula and every spacing of its tokens, the formula is
read. -/
theorem Writes.parse_eq (h : Writes 0 f ws) (hf : f.isReadable = true) {text : String}
    (hs : Spaced ws text.toList) : parse text = .ok f := by
  obtain ⟨s, htakes, hst⟩ := h.takes hf (.formula []) [] (Or.inl rfl) nofun
  exact parse_of_reads (htakes.reads hs) hst.finish

/-- From every way to write a readable formula, however its tokens are spaced, this formula is
read. -/
theorem parse_of_writes {f : Formula} (hf : f.isReadable = true) {text : String}
    (hw : Writes 0 f (words text.toList)) : parse text = .ok f :=
  hw.parse_eq hf (spaced_words text.toList)

/-- A formula with many ways to write it. -/
def spelledOut : Formula :=
  .all (.var "not") (.all (.var "or") (.iff
    (.iff
      (.implies
        (.and (.atomic ⟨"and", [.var "not"]⟩) (.not (.atomic ⟨"iff", []⟩)))
        (.implies (.or (.or (.atomic ⟨"or", []⟩) (.atomic ⟨"P", []⟩)) (.atomic ⟨"Q", []⟩))
          (.atomic ⟨"R", []⟩)))
      (.atomic ⟨"S", []⟩))
    (.ex (.var "y") (.atomic ⟨"T", [.app "f" [.var "y"], .const "C"]⟩))))

/-- One of them, with keywords for names. -/
def spelledOutText : String :=
  "forall not , or : ( ( and ( not ) ) and\t~ iff\r\n=> or | P \\/ Q -> R <=> S iff " ++
    "∃ y . T ( f ( y ) , C ) ) "

theorem spelledOutText_writes : Writes 0 spelledOut (words spelledOutText.toList) := by
  have hwords : words spelledOutText.toList =
      ["forall", "not", ",", "or", ":", "(", "(", "and", "(", "not", ")", ")", "and", "~", "iff",
        "=>", "or", "|", "P", "\\/", "Q", "->", "R", "<=>", "S", "iff", "∃", "y", ".", "T", "(",
        "f", "(", "y", ")", ",", "C", ")", ")"] := by
    decide +kernel
  rw [hwords]
  have hpremise : Writes 2 (.and (.atomic ⟨"and", [.var "not"]⟩) (.not (.atomic ⟨"iff", []⟩)))
      (["(", "and", "(", "not", ")", ")"] ++ "and" :: ["~", "iff"]) :=
    .join .and (by decide) (by decide) (.group (.atomic ⟨"and", [.var "not"]⟩))
      (.not (by decide) (.atomic ⟨"iff", []⟩))
  have hchoice : Writes 2 (.or (.or (.atomic ⟨"or", []⟩) (.atomic ⟨"P", []⟩)) (.atomic ⟨"Q", []⟩))
      ((["or"] ++ "|" :: ["P"]) ++ "\\/" :: ["Q"]) :=
    .join .or (by decide) (by decide)
      (.join .or (by decide) (by decide) (.atomic ⟨"or", []⟩) (.atomic ⟨"P", []⟩))
      (.atomic ⟨"Q", []⟩)
  have hexists : Writes 1 (.ex (.var "y") (.atomic ⟨"T", [.app "f" [.var "y"], .const "C"]⟩))
      ("∃" :: (["y"] ++ ["."] ++ ["T", "(", "f", "(", "y", ")", ",", "C", ")"])) :=
    .ex "y" [] (by decide) (by decide) (.atomic ⟨"T", [.app "f" [.var "y"], .const "C"]⟩)
  have hchain := Writes.join .implies (n := 0) (by decide) (by decide : "=>" ∈ _) hpremise
    (.join .implies (by decide) (by decide : "->" ∈ _) hchoice (.atomic ⟨"R", []⟩))
  have hsides := Writes.join .iff (n := 0) (by decide) (by decide : "iff" ∈ _)
    (.join .iff (by decide) (by decide : "<=>" ∈ _) hchain (.atomic ⟨"S", []⟩)) hexists
  exact .all "not" ["or"] (by decide : "forall" ∈ _) (by decide : [":"] ∈ _) (.group hsides)

theorem parse_of_writes_spelledOut :
    spelledOut.isReadable = true ∧ Writes 0 spelledOut (words spelledOutText.toList) ∧
      parse spelledOutText = .ok spelledOut := by
  have hread : spelledOut.isReadable = true := by decide +kernel
  exact ⟨hread, spelledOutText_writes, parse_of_writes hread spelledOutText_writes⟩

end Notation

end Elenchus

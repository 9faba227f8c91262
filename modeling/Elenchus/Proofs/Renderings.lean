import Elenchus.Proofs.Sentences

/-!
Reading what was written: the rendering of a formula is one way to write it, and its tokens are
spaced so that they are told apart.
-/

namespace Elenchus

namespace Notation

open Formula (renderIn)

variable {ws ws' : List String} {cs rest : List Char} {f g : Formula} {c : Char} {n : Nat}

/-! ### Spacing -/

/-- The text stands for the tokens, whatever is written after it. -/
def Spells (cs : List Char) (ws : List String) : Prop :=
  ∀ ws' rest, EndsName rest → Spaced ws' rest → Spaced (ws ++ ws') (cs ++ rest)

theorem Spaced.sign (hc : isNameStart c = false) (h : Spaced ws cs) :
    Spaced (String.singleton c :: ws) (c :: cs) := by
  have hends : EndsToken (String.singleton c).toList cs := fun hw => by simp [isWord, hc] at hw
  simpa using Spaced.token hends h

theorem Spaced.word (w : String) (hr : EndsName rest) (h : Spaced ws rest) :
    Spaced (w :: ws) (w.toList ++ rest) :=
  .token (fun _ => hr) h

theorem spaced_args {u : Term} {us : List Term} (hu : Spells u.text.toList u.tokens)
    (hus : ∀ u ∈ us, Spells u.text.toList u.tokens) (h : Spaced ws rest) :
    Spaced (u.tokens ++ (Term.tokensRest us ++ ws))
      (u.text.toList ++ ((Term.textRest us).toList ++ ')' :: rest)) := by
  induction us generalizing u with
  | nil =>
    have hrest := h.sign (c := ')') rfl
    simpa [Term.textRest, Term.tokensRest] using hu _ _ (endsName_cons rfl _) hrest
  | cons v vs ih =>
    obtain ⟨hv, hvs⟩ := List.forall_mem_cons.1 hus
    have hrest := (Spaced.space (c := ' ') rfl (ih hv hvs)).sign (c := ',') rfl
    simpa [Term.textRest, Term.tokensRest] using hu _ _ (endsName_cons rfl _) hrest

theorem spells_term (u : Term) : Spells u.text.toList u.tokens := by
  induction u with
  | var x => exact fun ws rest hr h => h.word x hr
  | app f us ih =>
    intro ws rest hr h
    cases us with
    | nil => exact h.word f hr
    | cons u us =>
      obtain ⟨hu, hus⟩ := List.forall_mem_cons.1 ih
      have hargs := ((spaced_args hu hus h).sign (c := '(') rfl).word f (endsName_cons rfl _)
      simpa [Term.text, Term.tokens] using hargs

/-! ### Connectives -/

namespace Connective

def sign : Connective → Char
  | .and => '∧'
  | .or => '∨'
  | .implies => '→'
  | .iff => '↔'

/-- The levels at which the sides are written. -/
def left : Connective → Nat
  | .and => 4
  | .or => 3
  | .implies => 3
  | .iff => 2

def right : Connective → Nat
  | .and => 4
  | .or => 3
  | .implies => 2
  | .iff => 2

variable (o : Connective)

/-- The connective with its sides in writing. -/
def body (f g : Formula) : List Char :=
  (renderIn o.left f).toList ++ ' ' :: o.sign :: ' ' :: (renderIn o.right g).toList

theorem toList_renderIn (n : Nat) (f g : Formula) :
    (renderIn n (o.join f g)).toList =
      if o.level ≤ n then '(' :: (o.body f g ++ [')']) else o.body f g := by
  have hbody : renderIn n (o.join f g) =
      Formula.enclose o.level n (String.ofList (o.body f g)) := by
    cases o <;> exact congrArg _ (String.toList_inj.1 (by simp [body, left, right, sign]))
  rw [hbody, Formula.enclose]
  split <;> simp

theorem singleton_sign : String.singleton o.sign ∈ o.spellings := by
  cases o <;> decide

theorem isNameStart_sign : isNameStart o.sign = false := by
  cases o <;> decide

theorem level_pos : 0 < o.level := by
  cases o <;> decide

theorem sides : o.leftPlace ≤ o.left ∧ o.rightPlace ≤ o.right := by
  cases o <;> decide

end Connective

/-! ### Formulas -/

/-- The rendering of a formula in a place of some level is a way to write it there. -/
def IsWriting (n : Nat) (f : Formula) : Prop :=
  ∃ ws, Writes n f ws ∧ Spells (renderIn n f).toList ws

theorem isWriting_join (o : Connective) (hf : IsWriting o.left f) (hg : IsWriting o.right g)
    (n : Nat) : IsWriting n (o.join f g) := by
  obtain ⟨ws, hws, hspf⟩ := hf
  obtain ⟨ws', hws', hspg⟩ := hg
  have hwrites : ∀ m < o.level, Writes m (o.join f g) (ws ++ String.singleton o.sign :: ws') :=
    fun m hm => .join o hm o.singleton_sign (hws.mono o.sides.1) (hws'.mono o.sides.2)
  have hbody : Spells (o.body f g) (ws ++ String.singleton o.sign :: ws') := by
    intro vs rest hr h
    have hright := (hspg _ _ hr h).space (c := ' ') rfl |>.sign o.isNameStart_sign
    simpa [Connective.body] using hspf _ _ (endsName_cons rfl _) (hright.space (c := ' ') rfl)
  rw [IsWriting, o.toList_renderIn]
  split
  · refine ⟨_, .group (hwrites 0 o.level_pos), fun vs rest hr h => ?_⟩
    have hclosed := hbody _ _ (endsName_cons rfl _) (h.sign (c := ')') rfl)
    simpa using hclosed.sign (c := '(') rfl
  · next hn => exact ⟨_, hwrites n (by omega), hbody⟩

theorem spells_binder {q : Char} (hq : isNameStart q = false) (x : String)
    (hf : Spells (renderIn 5 f).toList ws) :
    Spells (q :: (x.toList ++ ' ' :: (renderIn 5 f).toList))
      (String.singleton q :: ([x].intersperse "," ++ [] ++ ws)) := by
  intro vs rest hr h
  have hbody := (hf _ _ hr h).space (c := ' ') rfl
  simpa using (hbody.word x (endsName_cons rfl _)).sign hq

theorem isWriting_of_isReadable (h : f.isReadable = true) (n : Nat) : IsWriting n f := by
  induction f generalizing n with
  | atomic a => exact ⟨_, .atomic a, spells_term (.app a.pred a.args)⟩
  | not f ih =>
    obtain ⟨ws, hws, hsp⟩ := ih h 5
    refine ⟨_, .not (by decide : "¬" ∈ _) hws, fun vs rest hr h => ?_⟩
    simpa [renderIn] using (hsp _ _ hr h).sign (c := '¬') rfl
  | and f g ihf ihg =>
    simp only [Formula.isReadable, Bool.and_eq_true] at h
    exact isWriting_join .and (ihf h.1 _) (ihg h.2 _) n
  | or f g ihf ihg =>
    simp only [Formula.isReadable, Bool.and_eq_true] at h
    exact isWriting_join .or (ihf h.1 _) (ihg h.2 _) n
  | implies f g ihf ihg =>
    simp only [Formula.isReadable, Bool.and_eq_true] at h
    exact isWriting_join .implies (ihf h.1 _) (ihg h.2 _) n
  | iff f g ihf ihg =>
    simp only [Formula.isReadable, Bool.and_eq_true] at h
    exact isWriting_join .iff (ihf h.1 _) (ihg h.2 _) n
  | all b f ih =>
    cases b with
    | other i => cases h
    | var x =>
      simp only [Formula.isReadable, Bool.and_eq_true] at h
      obtain ⟨ws, hws, hsp⟩ := ih h.2 5
      refine ⟨_, .all x [] (by decide : "∀" ∈ _) (by decide : [] ∈ _) hws, ?_⟩
      simpa [renderIn, Binder.name?] using spells_binder (q := '∀') (by decide) x hsp
  | ex b f ih =>
    cases b with
    | other i => cases h
    | var x =>
      simp only [Formula.isReadable, Bool.and_eq_true] at h
      obtain ⟨ws, hws, hsp⟩ := ih h.2 5
      refine ⟨_, .ex x [] (by decide : "∃" ∈ _) (by decide : [] ∈ _) hws, ?_⟩
      simpa [renderIn, Binder.name?] using spells_binder (q := '∃') (by decide) x hsp
  | stray i => cases h

theorem parse_of_isReadable (h : f.isReadable = true) : parse f.render = .ok f := by
  obtain ⟨ws, hws, hsp⟩ := isWriting_of_isReadable h 0
  exact hws.parse_eq h (by simpa [Formula.render] using hsp [] [] nofun .done)

/-- Rendering and parsing are inverse to each other on the readable formulas, and nothing else is
ever read. -/
theorem parse_render (f : Formula) :
    ((∃ text, parse text = .ok f) ↔ f.isReadable = true) ∧
      (f.isReadable = true → parse f.render = .ok f) := by
  refine ⟨⟨fun ⟨text, h⟩ => isReadable_of_parse h, fun h => ⟨f.render, parse_of_isReadable h⟩⟩,
    parse_of_isReadable⟩

/-- A formula in which keywords are names. -/
def keywordNames : Formula :=
  .all (.var "not") (.implies (.implies (.atomic ⟨"and", [.var "not", .const "_"]⟩)
      (.atomic ⟨"or", []⟩))
    (.not (.iff (.and (.atomic ⟨"iff", [.app "forall" [.const "A1"]]⟩) (.ex (.var "or")
        (.atomic ⟨"or", []⟩)))
      (.or (.atomic ⟨"or", []⟩) (.or (.atomic ⟨"P'", [.var "exists"]⟩) (.atomic ⟨"or", []⟩))))))

theorem parse_render_keywordNames :
    keywordNames.isReadable = true ∧
      keywordNames.render =
        "∀not ((and(not, _) → or) → ¬(iff(forall(A1)) ∧ ∃or or ↔ or ∨ (P'(exists) ∨ or)))" ∧
      parse keywordNames.render = .ok keywordNames := by
  have hread : keywordNames.isReadable = true := by decide +kernel
  exact ⟨hread, by decide +kernel, (parse_render keywordNames).2 hread⟩

end Notation

end Elenchus

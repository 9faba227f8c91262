import Elenchus.Proofs.Beginnings

/-!
The words of a text that is read: names of the formula and keywords, but for words that run on.
-/

namespace Elenchus

def Term.vocabulary (t : Term) : List String := t.vars ++ t.symbols.map Symbol.name

/-- The names of predicates, functions, constants and variables, bound ones too. -/
def Formula.vocabulary : Formula → List String
  | .atomic a => a.pred :: a.args.flatMap Term.vocabulary
  | .not f => f.vocabulary
  | .and f g | .or f g | .implies f g | .iff f g => f.vocabulary ++ g.vocabulary
  | .all (.var x) f | .ex (.var x) f => x :: f.vocabulary
  | .all (.other _) f | .ex (.other _) f => f.vocabulary
  | .stray _ => []

namespace Notation

variable {s s' s₁ : State} {t : Token} {cs rest before w after : List Char} {f g : Formula}
  {fr : Frame} {st : List Frame} {x : String} {u : Term} {calls : List Call} {atom : Call}

/-! ### Names on the way -/

def Frame.vocabulary : Frame → List String
  | .group | .not => []
  | .all xs | .ex xs => xs
  | .and f | .or f | .implies f | .iff f => f.vocabulary

def Call.vocabulary (c : Call) : List String := c.name :: c.args.flatMap Term.vocabulary

/-- The names at hand in a state. -/
def State.vocabulary : State → List String
  | .formula st => st.flatMap Frame.vocabulary
  | .binder _ xs st | .afterBinder _ xs st => xs ++ st.flatMap Frame.vocabulary
  | .afterName p st => p :: st.flatMap Frame.vocabulary
  | .afterFormula f st => f.vocabulary ++ st.flatMap Frame.vocabulary
  | .term calls atom st | .afterTerm calls atom st =>
    (calls ++ [atom]).flatMap Call.vocabulary ++ st.flatMap Frame.vocabulary
  | .afterTermName n calls atom st =>
    n :: (calls ++ [atom]).flatMap Call.vocabulary ++ st.flatMap Frame.vocabulary

theorem mem_vocabulary_app {c : Call} :
    x ∈ (Term.app c.name c.args).vocabulary ↔ x ∈ c.vocabulary := by
  simp only [Term.vocabulary, Call.vocabulary, Term.vars_app, Term.symbols,
    Term.symbolsList_eq_flatMap, List.map_cons, List.mem_append, List.mem_cons, List.mem_flatMap,
    List.map_flatMap]
  grind

theorem mem_vocabulary_bareTerm {n : String} : x ∈ (bareTerm n).vocabulary ↔ x = n := by
  rw [bareTerm]
  split <;> simp [Term.vocabulary, Term.vars, Term.varsList, Term.symbols, Term.symbolsList]

theorem mem_vocabulary_pushArg :
    x ∈ ((State.pushArg u calls atom).1 ++ [(State.pushArg u calls atom).2]).flatMap
        Call.vocabulary ↔
      x ∈ (calls ++ [atom]).flatMap Call.vocabulary ∨ x ∈ u.vocabulary := by
  have hpush : ∀ c : Call, (c.push u).vocabulary = c.vocabulary ++ u.vocabulary := by
    intro c
    simp [Call.push, Call.vocabulary]
  cases calls with
  | nil => simp [State.pushArg, hpush]
  | cons c calls =>
    simp only [State.pushArg, List.cons_append, List.flatMap_cons, hpush, List.mem_append]
    tauto

theorem mem_vocabulary_closeCall :
    x ∈ (State.closeCall st calls atom).vocabulary ↔
      x ∈ (calls ++ [atom]).flatMap Call.vocabulary ∨ x ∈ st.flatMap Frame.vocabulary := by
  cases calls with
  | nil => simp [State.closeCall, State.vocabulary, Formula.vocabulary, Call.vocabulary, or_assoc]
  | cons c calls =>
    simp only [State.closeCall, State.vocabulary, List.mem_append, mem_vocabulary_pushArg,
      mem_vocabulary_app, List.cons_append, List.flatMap_cons]
    tauto

theorem mem_vocabulary_close :
    x ∈ (fr.close f).vocabulary ↔ x ∈ fr.vocabulary ∨ x ∈ f.vocabulary := by
  have hquant : ∀ (mk : Binder → Formula → Formula) (xs : List String),
      (∀ y g, (mk (.var y) g).vocabulary = y :: g.vocabulary) →
      (xs.foldr (fun y g => mk (.var y) g) f).vocabulary = xs ++ f.vocabulary := by
    intro mk xs hmk
    induction xs with
    | nil => rfl
    | cons y ys ih => rw [List.foldr_cons, hmk, ih, List.cons_append]
  cases fr with
  | all xs => rw [Frame.close, hquant .all xs fun _ _ => rfl, List.mem_append, Frame.vocabulary]
  | ex xs => rw [Frame.close, hquant .ex xs fun _ _ => rfl, List.mem_append, Frame.vocabulary]
  | _ => simp [Frame.close, Frame.vocabulary, Formula.vocabulary]

theorem mem_vocabulary_settle (n : Nat) :
    x ∈ (settle n f st).1.vocabulary ∨ x ∈ (settle n f st).2.flatMap Frame.vocabulary ↔
      x ∈ f.vocabulary ∨ x ∈ st.flatMap Frame.vocabulary := by
  induction st generalizing f with
  | nil => rfl
  | cons fr st ih =>
    rw [settle]
    split
    · rw [ih, mem_vocabulary_close, List.flatMap_cons, List.mem_append]
      tauto
    · rfl

/-! ### What a step adds -/

theorem mem_vocabulary_begin (hs : State.begin st t = some s') :
    x ∈ s'.vocabulary ↔
      x ∈ st.flatMap Frame.vocabulary ∨ t.kind = .name ∧ x = String.ofList t.text := by
  rw [State.begin] at hs
  split at hs
  all_goals cases hs
  all_goals simp_all [State.vocabulary, Frame.vocabulary, or_comm]

theorem mem_vocabulary_goOn (hs : State.goOn f st t = some s') :
    t.kind ≠ .name ∧
      (x ∈ s'.vocabulary ↔ x ∈ f.vocabulary ∨ x ∈ st.flatMap Frame.vocabulary) := by
  have hopen : ∀ n (mk : Formula → Frame), (∀ g, (mk g).vocabulary = g.vocabulary) →
      some (.formula (mk (settle n f st).1 :: (settle n f st).2)) = some s' →
      (x ∈ s'.vocabulary ↔ x ∈ f.vocabulary ∨ x ∈ st.flatMap Frame.vocabulary) := by
    rintro n mk hmk ⟨⟩
    rw [State.vocabulary, List.flatMap_cons, hmk, List.mem_append, mem_vocabulary_settle]
  rw [State.goOn] at hs
  split at hs
  · next hk => exact ⟨by simp [hk], hopen 4 .and (fun _ => rfl) hs⟩
  · next hk => exact ⟨by simp [hk], hopen 4 .and (fun _ => rfl) hs⟩
  · next hk => exact ⟨by simp [hk], hopen 3 .or (fun _ => rfl) hs⟩
  · next hk => exact ⟨by simp [hk], hopen 3 .or (fun _ => rfl) hs⟩
  · next hk => exact ⟨by simp [hk], hopen 3 .implies (fun _ => rfl) hs⟩
  · next hk => exact ⟨by simp [hk], hopen 1 .iff (fun _ => rfl) hs⟩
  · next hk => exact ⟨by simp [hk], hopen 1 .iff (fun _ => rfl) hs⟩
  · next hk =>
    split at hs
    · next g rest hg =>
      cases hs
      refine ⟨by simp [hk], ?_⟩
      rw [← mem_vocabulary_settle 1, hg]
      simp [State.vocabulary, Frame.vocabulary]
    · cases hs
  · cases hs

/-- A step adds the name that it takes, and nothing else. -/
theorem mem_vocabulary_step (hs : s.step t = some s') :
    x ∈ s'.vocabulary ↔ x ∈ s.vocabulary ∨ t.kind = .name ∧ x = String.ofList t.text := by
  cases s with
  | formula st => exact mem_vocabulary_begin hs
  | binder q xs st =>
    rw [State.step] at hs
    split at hs
    · next hk =>
      cases hs
      simp only [State.vocabulary, hk, List.mem_append, List.mem_singleton]
      tauto
    · cases hs
  | afterBinder q xs st =>
    have hquant : (State.quantifier q xs).vocabulary = xs := by cases q <;> rfl
    rw [State.step] at hs
    split at hs
    · next hk =>
      cases hs
      simp [State.vocabulary, hk]
    · next hk =>
      cases hs
      simp [State.vocabulary, hk, hquant]
    · rw [mem_vocabulary_begin hs, List.flatMap_cons, hquant]
      rfl
  | afterName p st =>
    rw [State.step] at hs
    split at hs
    · next hk =>
      cases hs
      simp [State.vocabulary, Call.vocabulary, hk]
    · obtain ⟨hk, hx⟩ := mem_vocabulary_goOn (x := x) hs
      rw [hx]
      simp [State.vocabulary, Formula.vocabulary, hk]
  | afterFormula f st =>
    obtain ⟨hk, hx⟩ := mem_vocabulary_goOn (x := x) hs
    rw [hx]
    simp [State.vocabulary, hk]
  | term calls atom st =>
    rw [State.step] at hs
    split at hs
    · next hk =>
      cases hs
      simp only [State.vocabulary, hk, List.cons_append, List.mem_cons]
      tauto
    · cases hs
  | afterTermName n calls atom st =>
    have hpush := @mem_vocabulary_pushArg x (bareTerm n) calls atom
    rw [mem_vocabulary_bareTerm] at hpush
    rw [State.step] at hs
    split at hs
    · next hk =>
      cases hs
      simp [State.vocabulary, Call.vocabulary, hk]
    · next hk =>
      have hs : some (State.term (State.pushArg (bareTerm n) calls atom).1
        (State.pushArg (bareTerm n) calls atom).2 st) = some s' := hs
      cases hs
      rw [State.vocabulary, List.mem_append, hpush, State.vocabulary, List.cons_append,
        List.mem_cons, List.mem_append, hk]
      simp only [reduceCtorEq, false_and, or_false]
      tauto
    · next hk =>
      have hs : some (State.closeCall st (State.pushArg (bareTerm n) calls atom).1
        (State.pushArg (bareTerm n) calls atom).2) = some s' := hs
      cases hs
      rw [mem_vocabulary_closeCall, hpush, State.vocabulary, List.cons_append, List.mem_cons,
        List.mem_append, hk]
      simp only [reduceCtorEq, false_and, or_false]
      tauto
    · cases hs
  | afterTerm calls atom st =>
    rw [State.step] at hs
    split at hs
    · next hk =>
      cases hs
      simp [State.vocabulary, hk]
    · next hk =>
      have hs : some (State.closeCall st calls atom) = some s' := hs
      cases hs
      rw [mem_vocabulary_closeCall, State.vocabulary, List.mem_append, hk]
      simp
    · cases hs

theorem Walks.vocabulary_subset {fine : State → Token → Prop} (h : Walks fine s cs s' rest)
    (hx : x ∈ s.vocabulary) : x ∈ s'.vocabulary := by
  induction h with
  | done => exact hx
  | space _ _ ih => exact ih hx
  | token _ _ hs _ _ ih => exact ih ((mem_vocabulary_step hs).2 (Or.inl hx))

theorem mem_vocabulary_finish (hf : s.finish = some f) (hx : x ∈ s.vocabulary) :
    x ∈ f.vocabulary := by
  have hclose : ∀ {g st}, State.finish.closeAll g st = some f →
      x ∈ g.vocabulary ∨ x ∈ st.flatMap Frame.vocabulary → x ∈ f.vocabulary := by
    intro g st hg hx
    rw [State.finish.closeAll] at hg
    split at hg
    · next hsettle =>
      cases hg
      rw [← mem_vocabulary_settle 1, hsettle] at hx
      simpa using hx
    · cases hg
  cases s with
  | afterName p st =>
    refine hclose hf ?_
    simpa [State.vocabulary, Formula.vocabulary] using hx
  | afterFormula g st => exact hclose hf (List.mem_append.1 hx)
  | _ => cases hf

/-- A name that is taken is a name of the formula. -/
theorem mem_vocabulary_of_name {fine : State → Token → Prop} (hs : s.step t = some s₁)
    (h : Walks fine s₁ cs s' rest) (hf : s'.finish = some f) (hk : t.kind = .name) :
    String.ofList t.text ∈ f.vocabulary :=
  mem_vocabulary_finish hf (h.vocabulary_subset ((mem_vocabulary_step hs).2 (Or.inr ⟨hk, rfl⟩)))

/-! ### Words and tokens -/

/-- A word of a text: name characters, with none before and none after them. -/
structure IsRun (text before w after : List Char) : Prop where
  eq : text = before ++ (w ++ after)
  ne : w ≠ []
  chars : ∀ c ∈ w, isNameChar c = true
  left : ∀ c ∈ before.getLast?, isNameChar c = false
  right : EndsName after

theorem isNameChar_sign {e : List Char × Kind} (h : e ∈ signs) :
    ∀ c ∈ e.1, isNameChar c = false := by
  have hsigns : ∀ e ∈ signs, e.1.all (fun c => !isNameChar c) = true := by decide
  simpa using hsigns e h

theorem chars_of_tokenWhere {allowed : Kind → Bool} (h : tokenWhere allowed cs = some t) :
    (∀ c ∈ t.text, isNameChar c = true) ∨ ∀ c ∈ t.text, isNameChar c = false := by
  rcases tokenWhere_cases h with ⟨-, -, hword⟩ | ⟨-, -, hmem | ⟨-, hmem⟩⟩
  · exact Or.inl (isNameChar_of_isWord hword)
  · exact Or.inr (isNameChar_sign hmem)
  · exact Or.inl (isNameChar_of_isWord (isWord_keyword hmem))

namespace IsRun

theorem tail {v : List Char} (h : IsRun (v ++ cs) (v ++ before) w after) :
    IsRun cs before w after where
  eq := List.append_cancel_left (h.eq.trans (List.append_assoc ..))
  ne := h.ne
  chars := h.chars
  left := by
    intro c hc
    refine h.left c ?_
    rw [List.getLast?_append, Option.mem_def.1 hc]
    rfl
  right := h.right

/-- A token that begins before the word ends before it. -/
theorem exists_within {allowed : Kind → Bool} (h : IsRun cs before w after) (hne : before ≠ [])
    (ht : tokenWhere allowed cs = some t) : ∃ before', before = t.text ++ before' := by
  have hfront := (tokenWhere_front ht).2
  rw [h.eq] at hfront
  rcases Nat.lt_or_ge before.length t.text.length with hlt | hle
  · -- otherwise it has the last character before the word, and the first one of the word
    exfalso
    obtain ⟨c, ws, hw⟩ := List.exists_cons_of_ne_nil h.ne
    have hmore : before ++ [c] <+: t.text := by
      refine List.prefix_of_prefix_length_le ⟨ws ++ after, ?_⟩ hfront ?_
      · simp [hw]
      · rw [List.length_append, List.length_singleton]
        exact hlt
    have hc : isNameChar c = true := h.chars c (by simp [hw])
    have hlast := h.left _ (List.getLast?_eq_some_getLast hne)
    rcases chars_of_tokenWhere ht with hchars | hchars
    · have := hchars _ (hmore.subset (List.mem_append_left _ (List.getLast_mem hne)))
      rw [hlast] at this
      cases this
    · have := hchars c (hmore.subset (by simp))
      rw [hc] at this
      cases this
  · obtain ⟨before', hb⟩ := List.prefix_of_prefix_length_le hfront (List.prefix_append ..) hle
    exact ⟨before', hb.symm⟩

theorem not_space {c : Char} (h : IsRun (c :: cs) [] w after) : isSpace c = false := by
  obtain ⟨d, ws, hw⟩ := List.exists_cons_of_ne_nil h.ne
  have heq := h.eq
  rw [hw] at heq
  obtain ⟨rfl, -⟩ := List.cons.inj heq
  have hc : isNameChar c = true := h.chars c (by simp [hw])
  by_contra hspace
  rw [isNameChar_of_isSpace (Bool.of_not_eq_false hspace)] at hc
  cases hc

/-- The word is no sign. -/
theorem not_sign (h : IsRun cs [] w after) (hfront : t.text <+: cs) (hne : t.text ≠ []) :
    (t.text, t.kind) ∉ signs := by
  intro hmem
  obtain ⟨d, ds, hds⟩ := List.exists_cons_of_ne_nil hne
  obtain ⟨c, ws, hw⟩ := List.exists_cons_of_ne_nil h.ne
  rw [h.eq, List.nil_append, hw, hds] at hfront
  obtain ⟨rfl, -⟩ := List.cons_prefix_cons.1 hfront
  have hc := h.chars d (by simp [hw])
  rw [isNameChar_sign hmem d (by simp [hds])] at hc
  cases hc

/-- Where a name can stand, the word is taken whole. -/
theorem whole_at_front {allowed : Kind → Bool} (h : IsRun cs [] w after)
    (ht : tokenWhere allowed cs = some t) (hn : allowed .name = true) :
    t.text = w ∧ (t.kind = .name ∨ allowed t.kind = true ∧ (t.text, t.kind) ∈ keywords) := by
  obtain ⟨hne, hfront⟩ := tokenWhere_front ht
  rcases tokenWhere_cases ht with ⟨-, htoken, -⟩ | ⟨-, -, hmem | ⟨hno, -⟩⟩
  · constructor
    · rw [htoken, text_wordToken, h.eq, List.nil_append]
      exact takeWhile_isNameChar h.chars h.right
    · rw [htoken]
      exact kind_wordToken allowed cs
  · exact absurd hmem (h.not_sign hfront hne)
  · rw [hn] at hno
    cases hno

end IsRun

/-! ### Words of a text -/

/-- A name of the formula, or a keyword. -/
def IsWhole (f : Formula) (w : String) : Prop :=
  w ∈ f.vocabulary ∨ w ∈ ["and", "or", "iff", "not", "forall", "exists"]

/-- A connective that runs on into the name or keyword after it. -/
def IsRunOn (f : Formula) (w : String) : Prop :=
  ∃ o ∈ ["and", "or", "iff"], ∃ v, w = o ++ v ∧
    (v ∈ f.vocabulary ∨ v ∈ ["not", "forall", "exists"])

theorem isWhole_keyword {k : Kind} (h : (w, k) ∈ keywords) : IsWhole f (String.ofList w) := by
  have hkeys : ∀ e ∈ keywords,
      String.ofList e.1 ∈ ["and", "or", "iff", "not", "forall", "exists"] := by
    decide
  exact Or.inr (hkeys _ h)

/-- Where a formula begins, the next word is a predicate or one of three keywords. -/
theorem word_at_begin (h : Reads (.formula st) cs s' []) (hf : s'.finish = some f)
    (hrun : IsRun cs [] w after) :
    String.ofList w ∈ f.vocabulary ∨ String.ofList w ∈ ["not", "forall", "exists"] := by
  cases h with
  | done =>
    have hnil : w ++ after = [] := hrun.eq.symm
    exact absurd (List.append_eq_nil_iff.1 hnil).1 hrun.ne
  | space hc _ =>
    rw [hrun.not_space] at hc
    cases hc
  | token hc ht hs hb hrest =>
    obtain ⟨rfl, hk | ⟨ha, hmem⟩⟩ := hrun.whole_at_front ht rfl
    · exact Or.inl (mem_vocabulary_of_name hs hrest hf hk)
    · have hkeys : ∀ e ∈ keywords, startsFormula e.2 = true →
          String.ofList e.1 ∈ ["not", "forall", "exists"] := by
        decide
      exact Or.inr (hkeys _ hmem ha)

/-- Where no name can stand, a keyword follows a complete formula, and another begins. -/
theorem State.standing_of_keyword (hn : s.expecting.allows .name = false)
    (ha : s.expecting.allows t.kind = true) (hmem : (t.text, t.kind) ∈ keywords)
    (hs : s.step t = some s₁) :
    (∃ g st, s.standing? = some (g, st)) ∧ String.ofList t.text ∈ ["and", "or", "iff"] ∧
      ∃ st, s₁ = .formula st := by
  have hkeys : ∀ e ∈ keywords, Expecting.afterName.allows e.2 = true ∨
      Expecting.afterFormula.allows e.2 = true →
      String.ofList e.1 ∈ ["and", "or", "iff"] ∧ isConnective e.2 = true ∧ e.2 ≠ .lpar := by
    decide
  have hterm : ∀ e ∈ keywords, ¬ (Expecting.afterTermName.allows e.2 = true ∨
      Expecting.afterTerm.allows e.2 = true) := by
    decide
  have hstanding : ∀ {g st}, s.standing? = some (g, st) →
      Expecting.afterName.allows t.kind = true ∨ Expecting.afterFormula.allows t.kind = true →
      (∃ g st, s.standing? = some (g, st)) ∧ String.ofList t.text ∈ ["and", "or", "iff"] ∧
        ∃ st, s₁ = .formula st := by
    intro g st hst hafter
    obtain ⟨hword, hconn, hlpar⟩ := hkeys _ hmem hafter
    obtain ⟨o, ho⟩ := Connective.exists_kinds hconn
    rw [State.step_of_standing hst hlpar, o.goOn_of_mem ho] at hs
    exact ⟨⟨g, st, hst⟩, hword, _, (Option.some.inj hs).symm⟩
  cases s with
  | afterName p st => exact hstanding rfl (Or.inl ha)
  | afterFormula f st => exact hstanding rfl (Or.inr ha)
  | afterTermName n calls atom st => exact absurd (Or.inl ha) (hterm _ hmem)
  | afterTerm calls atom st => exact absurd (Or.inr ha) (hterm _ hmem)
  | _ => cases hn

/-- A word at the front of a text is whole, or a connective at its front is followed by the rest. -/
theorem word_at_front {c : Char} (hs : s.step t = some s₁)
    (ht : tokenWhere s.expecting.allows (c :: cs) = some t)
    (h : Reads s₁ (cs.drop (t.text.length - 1)) s' []) (hf : s'.finish = some f)
    (hrun : IsRun (c :: cs) [] w after) :
    IsWhole f (String.ofList w) ∨
      IsRunOn f (String.ofList w) ∧ ∃ g st, s.standing? = some (g, st) := by
  obtain ⟨hne, hfront⟩ := tokenWhere_front ht
  cases hn : s.expecting.allows .name with
  | true =>
    obtain ⟨rfl, hk | ⟨-, hmem⟩⟩ := hrun.whole_at_front ht hn
    · exact Or.inl (Or.inl (mem_vocabulary_of_name hs h hf hk))
    · exact Or.inl (isWhole_keyword hmem)
  | false =>
    rcases tokenWhere_cases ht with ⟨hyes, -⟩ | ⟨ha, -, hmem | ⟨-, hmem⟩⟩
    · rw [hn] at hyes
      cases hyes
    · exact absurd hmem (hrun.not_sign hfront hne)
    · obtain ⟨hst, hword, st, rfl⟩ := State.standing_of_keyword hn ha hmem hs
      have hcs := eq_append_of_tokenWhere ht
      generalize cs.drop (t.text.length - 1) = rest at hcs h
      -- the keyword is the front of the word, and the rest of the word comes next
      obtain ⟨v, rfl, hv⟩ : ∃ v, w = t.text ++ v ∧ rest = v ++ after := by
        have htake := takeWhile_isNameChar hrun.chars hrun.right
        have heq : w ++ after = t.text ++ rest := hrun.eq.symm.trans hcs
        rw [heq, List.takeWhile_append_of_pos (isNameChar_of_isWord (isWord_keyword hmem))] at htake
        refine ⟨_, htake.symm, ?_⟩
        rw [← htake, List.append_assoc] at heq
        exact (List.append_cancel_left heq).symm
      cases v with
      | nil =>
        rw [List.append_nil]
        exact Or.inl (isWhole_keyword hmem)
      | cons d ds =>
        have hnext : IsRun rest [] (d :: ds) after :=
          ⟨hv, List.cons_ne_nil _ _, fun c hc => hrun.chars c (List.mem_append_right _ hc), nofun,
            hrun.right⟩
        refine Or.inr ⟨⟨_, hword, String.ofList (d :: ds), ?_, word_at_begin h hf hnext⟩, hst⟩
        rw [String.ofList_append]

/-- Each word of a text that is read. -/
theorem Walks.word_cases (h : Reads s cs s' rest) (hrest : rest = []) (hf : s'.finish = some f)
    (hrun : IsRun cs before w after) :
    IsWhole f (String.ofList w) ∨ IsRunOn f (String.ofList w) ∧
      ∃ s₁ g st, Reads s cs s₁ (w ++ after) ∧ s₁.standing? = some (g, st) := by
  induction h generalizing before with
  | done s cs =>
    subst hrest
    obtain ⟨-, hnil⟩ := List.append_eq_nil_iff.1 hrun.eq.symm
    exact absurd (List.append_eq_nil_iff.1 hnil).1 hrun.ne
  | @space s s' c cs rest hc hwalk ih =>
    cases before with
    | nil =>
      rw [hrun.not_space] at hc
      cases hc
    | cons b bs =>
      obtain ⟨rfl, -⟩ := List.cons.inj hrun.eq
      rcases ih hrest hf (IsRun.tail (v := [c]) hrun) with hw | ⟨hw, s₁, g, st, hr, hst⟩
      · exact Or.inl hw
      · exact Or.inr ⟨hw, s₁, g, st, .space hc hr, hst⟩
  | @token s s₂ s' c cs rest t hc ht hs hb hwalk ih =>
    cases before with
    | nil =>
      subst hrest
      rcases word_at_front hs ht hwalk hf hrun with hw | ⟨hw, g, st, hst⟩
      · exact Or.inl hw
      · have heq : c :: cs = w ++ after := hrun.eq
        exact Or.inr ⟨hw, s, g, st, heq ▸ .done s _, hst⟩
    | cons b bs =>
      obtain ⟨before, hbefore⟩ := hrun.exists_within (List.cons_ne_nil b bs) ht
      rw [hbefore, eq_append_of_tokenWhere ht] at hrun
      rcases ih hrest hf hrun.tail with hw | ⟨hw, s₁, g, st, hr, hst⟩
      · exact Or.inl hw
      · exact Or.inr ⟨hw, s₁, g, st, .token hc ht hs hb hr, hst⟩

/-- Each word of a text that is read is a name of the formula or a keyword as a whole. Only right
after a complete formula, where groups may be open, can it be a connective that runs on into the
name or keyword after it. -/
theorem parse_words {text : String} {f : Formula} (h : parse text = .ok f)
    {before w after : List Char} (hrun : IsRun text.toList before w after) :
    IsWhole f (String.ofList w) ∨ IsRunOn f (String.ofList w) ∧
      ∃ n g, parse (String.ofList (before ++ List.replicate n ')')) = .ok g := by
  obtain ⟨-, s, hreads, hf⟩ := parse_eq_ok_iff.1 h
  rcases hreads.word_cases rfl hf hrun with hw | ⟨hw, s₁, g, st, hr, hst⟩
  · exact Or.inl hw
  · refine Or.inr ⟨hw, ?_⟩
    obtain ⟨n, s₂, f₂, hclose, hf₂⟩ := exists_closing hst
    have hends : EndsName (List.replicate n ')') := by
      cases n with
      | zero => nofun
      | succ n => exact endsName_cons rfl _
    obtain ⟨before', hbefore, hagain⟩ := hr.swap (List.replicate n ')') fun _ => hends
    obtain rfl : before = before' := List.append_cancel_right (hrun.eq.symm.trans hbefore)
    refine ⟨n, f₂, parse_of_reads ?_ hf₂⟩
    rw [String.toList_ofList]
    exact hagain.trans hclose

/-- A predicate that begins like a connective, and a connective that runs on. -/
def orbiting : String := "∀x (orbits(x) ornot P)"

theorem parse_words_orbiting :
    ∃ f, parse orbiting = .ok f ∧
      IsRun orbiting.toList "∀x (orbits(x) ".toList "ornot".toList " P)".toList ∧
      (IsWhole f "ornot" ∨ IsRunOn f "ornot" ∧ ∃ n g,
        parse (String.ofList ("∀x (orbits(x) ".toList ++ List.replicate n ')')) = .ok g) := by
  have hok : (parse orbiting).toOption.isSome = true := by decide +kernel
  have hrun : IsRun orbiting.toList "∀x (orbits(x) ".toList "ornot".toList " P)".toList :=
    ⟨by decide, by decide, List.all_eq_true.1 (by decide), by rintro c ⟨⟩; rfl, endsName_cons rfl _⟩
  cases h : parse orbiting with
  | error e =>
    rw [h] at hok
    cases hok
  | ok f => exact ⟨f, rfl, hrun, parse_words h hrun⟩

/-- A name that begins with a keyword is split after a formula. -/
theorem parse_android :
    ∃ f, parse "P android" = .ok f ∧ IsRun "P android".toList "P ".toList "android".toList [] ∧
      ¬ IsWhole f "android" := by
  have hread : (parse "P android").toOption.map Formula.vocabulary = some ["P", "roid"] := by
    decide +kernel
  have hrun : IsRun "P android".toList "P ".toList "android".toList [] :=
    ⟨by decide, by decide, List.all_eq_true.1 (by decide), by rintro c ⟨⟩; rfl, by rintro c ⟨⟩⟩
  cases h : parse "P android" with
  | error e =>
    rw [h] at hread
    cases hread
  | ok f =>
    rw [h] at hread
    have hf : f.vocabulary = ["P", "roid"] := Option.some.inj hread
    refine ⟨f, rfl, hrun, ?_⟩
    rw [IsWhole, hf]
    decide

end Notation

end Elenchus

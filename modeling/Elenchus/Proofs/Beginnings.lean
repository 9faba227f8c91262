import Elenchus.Proofs.Constituents

/-! The text before an error is the beginning of a text whose syntax is right. -/

namespace Elenchus

namespace Notation

variable {s s' s₁ : State} {t : Token} {cs rest : List Char} {f g : Formula}
  {st : List Frame} {fine : State → Token → Prop}

/-! ### Another text ahead -/

/-- The text ahead of where a walk ends may be replaced, as long as a name still ends before it. -/
theorem Walks.swap (h : Walks fine s cs s' rest) (rest' : List Char)
    (hr : EndsName rest → EndsName rest') :
    ∃ before, cs = before ++ rest ∧ Walks fine s (before ++ rest') s' rest' := by
  induction h with
  | done s cs => exact ⟨[], rfl, .done s rest'⟩
  | space hc _ ih =>
    obtain ⟨before, rfl, hw⟩ := ih hr
    exact ⟨_ :: before, rfl, .space hc hw⟩
  | @token s s₁ s' c cs rest t hc ht hs hb _ ih =>
    obtain ⟨before, hbefore, hw⟩ := ih hr
    have hcs := eq_append_of_tokenWhere ht
    rw [hbefore] at hcs
    rw [hcs] at ht
    have hends : EndsName (before ++ rest) → EndsName (before ++ rest') := by
      cases before with
      | nil => exact hr
      | cons d ds => exact id
    refine ⟨t.text ++ before, by rw [hcs, List.append_assoc], ?_⟩
    rw [List.append_assoc]
    exact (Walks.single (tokenWhere_swap ht hends) hs hb).trans hw

theorem Walks.mono {fine' : State → Token → Prop} (h : Walks fine s cs s' rest)
    (hfine : ∀ s t, fine s t → fine' s t) : Walks fine' s cs s' rest := by
  induction h with
  | done s cs => exact .done s cs
  | space hc _ ih => exact .space hc ih
  | token hc ht hs hb _ ih => exact .token hc ht hs (hfine _ _ hb) ih

/-! ### Ways to the end -/

/-- Below the frames that close at the end, there is nothing or a group. -/
theorem settle_rest (g : Formula) (st : List Frame) :
    (settle 1 g st).2 = [] ∨
      ∃ st', (settle 1 g st).2 = .group :: st' ∧ st'.length < st.length := by
  induction st generalizing g with
  | nil => exact Or.inl rfl
  | cons fr st ih =>
    rw [settle]
    split
    · rcases ih (fr.close g) with h | ⟨st', h, hlt⟩
      · exact Or.inl h
      · exact Or.inr ⟨st', h, by simp only [List.length_cons]; omega⟩
    · next hlevel =>
      cases fr with
      | group => exact Or.inr ⟨st, rfl, by simp⟩
      | _ => simp [Frame.level] at hlevel

/-- Once a formula stands complete, it is enough to close the groups that are open. -/
theorem exists_closing (h : s.standing? = some (g, st)) :
    ∃ n s' f, Reads s (List.replicate n ')') s' [] ∧ s'.finish = some f := by
  induction hm : st.length using Nat.strongRecOn generalizing s g st with
  | ind m ih =>
    rcases settle_rest g st with hr | ⟨st', hr, hlt⟩
    · exact ⟨0, s, _, .done s [], State.finish_of_standing h (Prod.ext rfl hr)⟩
    · have hrpar : ∀ cs, Reads s (')' :: cs) (.afterFormula (settle 1 g st).1 st') cs := by
        have htakes : Takes s [")"] (.afterFormula (settle 1 g st).1 st') :=
          .spelled (k := .rpar) (by decide) (State.expecting_of_standing h (Or.inr rfl))
            (State.step_rpar h (Prod.ext rfl hr)) (State.admits_of_standing h)
        exact fun cs => htakes.reads_token nofun
      obtain ⟨n, s', f, hreads, hf⟩ := ih st'.length (hm ▸ hlt)
        (s := .afterFormula (settle 1 g st).1 st') rfl rfl
      exact ⟨n + 1, s', f, (hrpar _).trans hreads, hf⟩

/-- There is a text that leads from the state to the end of a formula. -/
def Completable (s : State) : Prop := ∃ rest s' f, Reads s rest s' [] ∧ s'.finish = some f

theorem Completable.before {w : String} (h : Completable s₁) (hs : Takes s [w] s₁) :
    Completable s := by
  obtain ⟨rest, s', f, hreads, hf⟩ := h
  have hends : EndsToken w.toList (' ' :: rest) := fun _ => endsName_cons rfl _
  exact ⟨_, s', f, (hs.reads_token hends).trans (.space rfl hreads), hf⟩

theorem completable_of_standing (h : s.standing? = some (g, st)) : Completable s := by
  obtain ⟨n, s', f, hreads, hf⟩ := exists_closing h
  exact ⟨_, s', f, hreads, hf⟩

theorem completable_of_begins (h : Begins s st) : Completable s := by
  have hstands : Completable (.afterName "P" st) := completable_of_standing rfl
  exact hstands.before (h.predicate (by decide))

theorem length_pushArg (u : Term) (calls : List Call) (atom : Call) :
    (State.pushArg u calls atom).1.length = calls.length := by
  cases calls <;> rfl

/-- After an argument, each application around it is closed in its turn. -/
theorem completable_closeCall (calls : List Call) (atom : Call) (st : List Frame) :
    Completable (State.closeCall st calls atom) := by
  induction hn : calls.length generalizing calls atom with
  | zero =>
    obtain rfl := List.length_eq_zero_iff.1 hn
    exact completable_of_standing rfl
  | succ n ih =>
    obtain ⟨c, calls, rfl⟩ := List.exists_cons_of_length_eq_add_one hn
    have hclosed := ih (State.pushArg (.app c.name c.args) calls atom).1
      (State.pushArg (.app c.name c.args) calls atom).2 (by
        rw [length_pushArg]
        simpa using hn)
    exact hclosed.before (w := ")") (.spelled (k := .rpar) (by decide) rfl rfl rfl)

theorem completable_afterTermName (n : String) (calls : List Call) (atom : Call)
    (st : List Frame) : Completable (.afterTermName n calls atom st) :=
  (completable_closeCall _ _ st).before (EndsTerm.rpar (Or.inl ⟨n, rfl, rfl⟩))

theorem completable (s : State) : Completable s := by
  cases s with
  | formula st => exact completable_of_begins (Or.inl rfl)
  | binder q xs st =>
    have hbegins : Completable (.afterBinder q (xs ++ ["x"]) st) :=
      completable_of_begins (Or.inr ⟨_, _, _, rfl, rfl⟩)
    exact hbegins.before (w := "x") (.onlyName (by decide) (fun _ => rfl) rfl rfl)
  | afterBinder q xs st => exact completable_of_begins (Or.inr ⟨_, _, _, rfl, rfl⟩)
  | afterName p st => exact completable_of_standing rfl
  | afterFormula f st => exact completable_of_standing rfl
  | term calls atom st =>
    exact (completable_afterTermName "x" calls atom st).before (takes_word (by decide))
  | afterTermName n calls atom st => exact completable_afterTermName n calls atom st
  | afterTerm calls atom st =>
    exact (completable_closeCall calls atom st).before (w := ")")
      (.spelled (k := .rpar) (by decide) rfl rfl rfl)

/-! ### Syntax alone -/

/-- Nothing is wrong with a text, unless a quantified name is no variable. -/
def HasSyntax (text : String) : Prop :=
  (∃ f, parse text = .ok f) ∨ ∃ e name, parse text = .error e ∧ e.fault = .capitalBinder name

/-- A walk that takes quantified names as they are. -/
abbrev Passes : State → List Char → State → List Char → Prop := Walks fun _ _ => True

theorem Walks.readFrom_eq (h : Walks fine s cs s' rest) (pos last : Nat)
    (capital : Option (String × Nat)) : ∃ pos' last' capital',
      readFrom s pos last capital cs = readFrom s' pos' last' capital' rest := by
  induction h generalizing pos last capital with
  | done => exact ⟨pos, last, capital, rfl⟩
  | space hc _ ih =>
    rw [readFrom, if_pos hc]
    exact ih _ _ _
  | token hc ht hs _ _ ih =>
    rw [readFrom, if_neg (by simp [hc]), ht]
    dsimp only
    rw [hs]
    exact ih _ _ _

theorem Walks.hasSyntax {text : String} (h : Walks fine (.formula []) text.toList s [])
    (hf : s.finish = some f) : HasSyntax text := by
  have hb : text.toList.all Text.isBlank = false := by
    by_contra hb
    rw [h.eq_of_blank (Bool.of_not_eq_false hb)] at hf
    cases hf
  obtain ⟨pos, last, capital, hr⟩ := h.readFrom_eq 0 0 none
  rw [HasSyntax, parse, parseChars, if_neg (by simp [hb]), hr, readFrom.eq_def]
  dsimp only
  rw [hf]
  cases capital with
  | none => exact Or.inl ⟨f, rfl⟩
  | some p => exact Or.inr ⟨_, p.1, rfl, rfl⟩

theorem Walks.exists_more {text : List Char} {place : Nat}
    (h : Passes (.formula []) text s (text.drop place)) :
    ∃ more : String, HasSyntax (String.ofList (text.take place) ++ more) := by
  obtain ⟨rest, s', f, hreads, hf⟩ := completable s
  obtain ⟨before, hbefore, hagain⟩ := h.swap (' ' :: rest) fun _ => endsName_cons rfl rest
  have htake : text.take place = before :=
    List.append_cancel_right ((List.take_append_drop place text).trans hbefore)
  have hall : Passes (.formula []) (before ++ ' ' :: rest) s' [] :=
    hagain.trans (.space rfl (hreads.mono fun _ _ _ => trivial))
  refine ⟨String.ofList (' ' :: rest), ?_⟩
  rw [htake, ← String.ofList_append]
  rw [← String.toList_ofList (l := before ++ ' ' :: rest)] at hall
  exact hall.hasSyntax hf

/-! ### Where the reader is stuck -/

/-- No token at the front of the text can stand here. -/
def Stuck (s : State) (cs : List Char) : Prop :=
  cs ≠ [] ∧ (∀ c ∈ cs.head?, isSpace c = false) ∧
    ∀ t, tokenWhere s.expecting.allows cs = some t → s.step t = none

theorem exists_begin (hk : startsFormula t.kind = true) (st : List Frame) :
    ∃ s', State.begin st t = some s' := by
  obtain ⟨k, w⟩ := t
  cases k with
  | name | notSign | notWord | allSign | allWord | exSign | exWord | lpar => exact ⟨_, rfl⟩
  | _ => cases hk

/-- Where names can stand, whatever is allowed leads on. -/
theorem exists_step (hn : s.expecting.allows .name = true)
    (ha : s.expecting.allows t.kind = true) : ∃ s', s.step t = some s' := by
  cases s with
  | formula st => exact exists_begin ha st
  | binder q xs st =>
    have hk : t.kind = .name := by simpa [State.expecting, Expecting.allows] using ha
    exact ⟨_, by simp only [State.step, hk]; rfl⟩
  | afterBinder q xs st =>
    rw [State.step]
    split
    · exact ⟨_, rfl⟩
    · exact ⟨_, rfl⟩
    · next hcomma hsep =>
      simp only [State.expecting, Expecting.allows, Bool.or_eq_true, beq_iff_eq] at ha
      exact exists_begin ((ha.resolve_right hsep).resolve_right hcomma) _
  | term calls atom st =>
    have hk : t.kind = .name := by simpa [State.expecting, Expecting.allows] using ha
    exact ⟨_, by simp only [State.step, hk]; rfl⟩
  | _ => cases hn

theorem eq_singleton_of_front {w more : List Char} {c : Char} (h : w <+: c :: ' ' :: more)
    (hne : w ≠ []) (hspace : ' ' ∉ w) : w = [c] := by
  cases w with
  | nil => exact absurd rfl hne
  | cons d ds =>
    obtain ⟨rfl, hds⟩ := List.cons_prefix_cons.1 h
    cases ds with
    | nil => rfl
    | cons e es =>
      obtain ⟨rfl, -⟩ := List.cons_prefix_cons.1 hds
      simp at hspace

/-- Where the reader is stuck, the first character alone is enough for it. -/
theorem Stuck.cut {c : Char} (h : Stuck s (c :: cs)) (more : List Char) :
    Stuck s (c :: ' ' :: more) := by
  obtain ⟨-, hc, hstep⟩ := h
  refine ⟨List.cons_ne_nil _ _, hc, fun t ht => ?_⟩
  obtain ⟨hne, hfront⟩ := tokenWhere_front ht
  rcases tokenWhere_cases ht with ⟨hn, -, hword⟩ | ⟨ha, -, hmem | ⟨-, hmem⟩⟩
  · -- a name or keyword would have led on
    exfalso
    have hstart : isNameStart c = true := by
      obtain ⟨d, ds, hds⟩ := List.exists_cons_of_ne_nil hne
      rw [hds] at hword hfront
      simp only [isWord, Bool.and_eq_true] at hword
      exact (List.cons_prefix_cons.1 hfront).1 ▸ hword.1
    have hkind : s.expecting.allows (wordToken s.expecting.allows (c :: cs)).kind = true := by
      rcases kind_wordToken s.expecting.allows (c :: cs) with hk | hk
      · rw [hk]
        exact hn
      · exact hk.1
    obtain ⟨s', hs'⟩ := exists_step hn hkind
    have hnone := hstep (wordToken s.expecting.allows (c :: cs)) (by
      rw [tokenWhere, if_pos hstart, if_pos hn])
    rw [hs'] at hnone
    cases hnone
  · have hspaces : ∀ e ∈ signs, ' ' ∉ e.1 := by decide
    have htext := eq_singleton_of_front hfront hne (hspaces _ hmem)
    apply hstep
    have hsign := tokenWhere_sign hmem ha cs
    rw [htext] at hsign
    rw [show t = ⟨t.kind, [c]⟩ from htext ▸ rfl]
    exact hsign
  · -- no keyword is a single character
    have hlong : ∀ e ∈ keywords, ' ' ∉ e.1 ∧ e.1.length ≠ 1 := by decide
    have htext := eq_singleton_of_front hfront hne (hlong _ hmem).1
    exact absurd (congrArg List.length htext) (hlong _ hmem).2

theorem Stuck.readFrom_eq (h : Stuck s cs) (pos last : Nat) (capital : Option (String × Nat)) :
    ∃ fault, readFrom s pos last capital cs = .error (fault, pos) ∧
      ∀ name, fault ≠ .capitalBinder name := by
  obtain ⟨hne, hc, hstep⟩ := h
  obtain ⟨c, cs, rfl⟩ := List.exists_cons_of_ne_nil hne
  rw [readFrom, if_neg (by simp [hc c rfl])]
  cases ht : tokenWhere s.expecting.allows (c :: cs) with
  | some t =>
    dsimp only
    rw [hstep t ht]
    exact ⟨_, rfl, by rintro name ⟨⟩⟩
  | none =>
    cases anyToken (c :: cs) with
    | some t => exact ⟨_, rfl, by rintro name ⟨⟩⟩
    | none => exact ⟨_, rfl, by rintro name ⟨⟩⟩

/-- No text with the right syntax begins with what the reader is stuck at. -/
theorem Stuck.not_hasSyntax {text : List Char} {place : Nat}
    (hwalk : Passes (.formula []) text s (text.drop place)) (h : Stuck s (text.drop place))
    (more : String) : ¬ HasSyntax (String.ofList (text.take (place + 1)) ++ " " ++ more) := by
  obtain ⟨c, cs, hdrop⟩ := List.exists_cons_of_ne_nil h.1
  rw [hdrop] at hwalk h
  obtain ⟨before, hbefore, hagain⟩ := hwalk.swap (c :: ' ' :: more.toList) id
  have htake : text.take place = before := by
    rw [← hdrop] at hbefore
    exact List.append_cancel_right ((List.take_append_drop place text).trans hbefore)
  have htext : (String.ofList (text.take (place + 1)) ++ " " ++ more).toList =
      before ++ c :: ' ' :: more.toList := by
    rw [List.take_add, htake, hdrop]
    simp
  obtain ⟨pos, last, capital, hr⟩ := hagain.readFrom_eq 0 0 none
  obtain ⟨fault, hfault, hcapital⟩ := (h.cut more.toList).readFrom_eq pos last capital
  rw [HasSyntax, parse, parseChars, htext, hr, hfault]
  split
  · rintro (⟨f, ⟨⟩⟩ | ⟨e, name, ⟨⟩, ⟨⟩⟩)
  · rintro (⟨f, ⟨⟩⟩ | ⟨e, name, ⟨⟩, hname⟩)
    exact hcapital name hname

/-! ### Places of errors -/

/-- The reader comes to a place inside the text. -/
def Comes (text : List Char) (place : Nat) : Prop :=
  place < text.length ∧ ∃ s, Passes (.formula []) text s (text.drop place)

theorem comes_here {text : List Char} {c : Char} {pos : Nat}
    (hwalk : Passes (.formula []) text s (c :: cs)) (hpos : text.drop pos = c :: cs) :
    Comes text pos := by
  refine ⟨?_, s, hpos ▸ hwalk⟩
  have hlength := congrArg List.length hpos
  simp only [List.length_drop, List.length_cons] at hlength
  omega

theorem stuck_here {text : List Char} {c : Char} {pos : Nat}
    (hwalk : Passes (.formula []) text s (c :: cs)) (hpos : text.drop pos = c :: cs)
    (hc : ¬ isSpace c = true)
    (hstep : ∀ t, tokenWhere s.expecting.allows (c :: cs) = some t → s.step t = none) :
    Comes text pos ∧
      ∃ s, Passes (.formula []) text s (text.drop pos) ∧ Stuck s (text.drop pos) := by
  refine ⟨comes_here hwalk hpos, s, hpos ▸ hwalk, hpos ▸ ⟨List.cons_ne_nil _ _, ?_, hstep⟩⟩
  rintro d ⟨⟩
  simpa using hc

theorem mem_noteBinder {pos : Nat} {capital : Option (String × Nat)} {p : String × Nat}
    (h : p ∈ noteBinder s t pos capital) : p ∈ capital ∨ p.2 = pos := by
  cases capital with
  | some found => exact Or.inl h
  | none =>
    cases s with
    | binder q xs st =>
      rw [noteBinder] at h
      split at h
      · cases h
      · cases h
        exact Or.inr rfl
    | _ => cases h

/-- Whether something stands in the text that cannot stand there. -/
def SyntaxFault.isMisplaced : SyntaxFault → Bool
  | .unexpected label _ => label != "$END"
  | .unmatched _ => true
  | .blank | .capitalBinder _ => false

/-- Wherever an error is placed, the reader has come there: it is the place where it is stuck, the
last token, or a quantified name. -/
theorem comes_of_readFrom {text : List Char} {pos last place : Nat}
    {capital : Option (String × Nat)} {fault : SyntaxFault}
    (hwalk : Passes (.formula []) text s cs) (hpos : text.drop pos = cs) (hlast : Comes text last)
    (hcapital : ∀ p ∈ capital, Comes text p.2)
    (h : readFrom s pos last capital cs = .error (fault, place)) :
    Comes text place ∧ (fault.isMisplaced = true →
      ∃ s, Passes (.formula []) text s (text.drop place) ∧ Stuck s (text.drop place)) := by
  fun_induction readFrom s pos last capital cs with
  | case1 =>
    cases h
    exact ⟨hlast, by rintro ⟨⟩⟩
  | case2 =>
    cases h
    exact ⟨hcapital _ rfl, by rintro ⟨⟩⟩
  | case3 => cases h
  | case4 s pos last capital c cs hc ih =>
    refine ih (hwalk.trans (.space hc (.done s cs))) ?_ hlast hcapital h
    rw [← List.drop_drop, hpos]
    rfl
  | case5 s pos last capital c cs hc t ht s₁ hs ih =>
    have hhere := comes_here hwalk hpos
    have hstep : Passes s (c :: cs) s₁ (cs.drop (t.text.length - 1)) :=
      .token (by simpa using hc) ht hs trivial (.done s₁ _)
    refine ih (hwalk.trans hstep) ?_ hhere ?_ h
    · have hcs := eq_append_of_tokenWhere ht
      rw [← List.drop_drop, hpos, hcs, List.drop_left]
    · intro p hp
      rcases mem_noteBinder hp with hp | hp
      · exact hcapital p hp
      · exact hp ▸ hhere
  | case6 s pos last capital c cs hc t ht hs =>
    cases h
    have hstuck := stuck_here hwalk hpos hc fun t' ht' => by
      obtain rfl : t = t' := Option.some.inj (ht.symm.trans ht')
      exact hs
    exact ⟨hstuck.1, fun _ => hstuck.2⟩
  | case7 s pos last capital c cs hc ht | case8 s pos last capital c cs hc ht =>
    cases h
    have hstuck := stuck_here hwalk hpos hc fun t ht' => by
      rw [ht] at ht'
      cases ht'
    exact ⟨hstuck.1, fun _ => hstuck.2⟩

/-- The place of an error is in the text, before its end unless the text is blank. The text before
this place is the beginning of a text with the right syntax; but if it is something in the text that
is wrong there, no such text goes on with the next character and then a space. -/
theorem parse_error_place {text : String} {e : ParseError} (h : parse text = .error e) :
    e.position ≤ text.toList.length ∧
      (text.toList.all Text.isBlank = false → e.position < text.toList.length) ∧
      (∃ more : String, HasSyntax (String.ofList (text.toList.take e.position) ++ more)) ∧
      (e.fault.isMisplaced = true → ∀ more : String,
        ¬ HasSyntax (String.ofList (text.toList.take (e.position + 1)) ++ " " ++ more)) := by
  rw [parse, parseChars] at h
  split at h
  · next hb =>
    cases h
    refine ⟨Nat.zero_le _, ?_, Walks.exists_more (.done _ _), by rintro ⟨⟩⟩
    intro hno
    rw [hb] at hno
    cases hno
  · next hb =>
    split at h
    · cases h
    · next fault place hr =>
      cases h
      have hfirst : Comes text.toList 0 := by
        refine ⟨List.length_pos_iff.2 ?_, .formula [], .done _ _⟩
        intro hnil
        rw [hnil] at hb
        exact hb rfl
      obtain ⟨⟨hlt, s, hwalk⟩, hstuck⟩ := comes_of_readFrom (.done _ _) rfl hfirst (by simp) hr
      refine ⟨hlt.le, fun _ => hlt, hwalk.exists_more, fun hmis more => ?_⟩
      obtain ⟨s', hwalk', hstuck'⟩ := hstuck hmis
      exact hstuck'.not_hasSyntax hwalk' more

/-- Two connectives in a row, after a quantified name that is no variable. -/
def doubledConnective : String := "∀X (P(X) & ∨ Q"

theorem parse_error_place_doubledConnective :
    ∃ e, parse doubledConnective = .error e ∧ e.position = 11 ∧
      (∃ more, HasSyntax ("∀X (P(X) & " ++ more)) ∧
      ∀ more, ¬ HasSyntax ("∀X (P(X) & ∨" ++ " " ++ more) := by
  have hrefused : (((parse doubledConnective).map fun _ => ()).mapError fun e =>
      (e.position, e.fault.isMisplaced)) = .error (11, true) := by
    decide +kernel
  cases h : parse doubledConnective with
  | ok f =>
    rw [h] at hrefused
    cases hrefused
  | error e =>
    rw [h] at hrefused
    obtain ⟨hpos, hmis⟩ := Prod.mk.inj (Except.error.inj hrefused)
    obtain ⟨-, -, hmore, hnone⟩ := parse_error_place h
    have hbefore : String.ofList (doubledConnective.toList.take 11) = "∀X (P(X) & " := by
      decide +kernel
    have hthere : String.ofList (doubledConnective.toList.take 12) = "∀X (P(X) & ∨" := by
      decide +kernel
    rw [hpos, hbefore] at hmore
    rw [hpos, hthere] at hnone
    exact ⟨e, rfl, hpos, hmore, hnone hmis⟩

end Notation

end Elenchus

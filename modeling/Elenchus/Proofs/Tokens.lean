import Elenchus.Proofs.Readings

/-! Which token stands at the front of a text, and how far it matters what follows it. -/

namespace Elenchus

namespace Notation

variable {t : Token} {w cs rest : List Char} {allowed : Kind → Bool} {c : Char} {k : Kind}

/-! ### Characters -/

theorem isBlank_of_isNameChar (h : isNameChar c = true) : Text.isBlank c = false := by
  have hrange : c.toNat = 39 ∨ 48 ≤ c.toNat ∧ c.toNat ≤ 57 ∨ 65 ≤ c.toNat ∧ c.toNat ≤ 90 ∨
      c.toNat = 95 ∨ 97 ≤ c.toNat ∧ c.toNat ≤ 122 := by
    rw [isNameChar, Bool.or_eq_true, Bool.or_eq_true, beq_iff_eq, beq_iff_eq] at h
    rcases h with (h | rfl) | rfl
    · -- letters and digits are told by the ranges of their numbers
      have h : ((decide (65 ≤ c.val ∧ c.val ≤ 90) ||
          decide (97 ≤ c.val) && decide (c.val ≤ 122)) ||
          decide (48 ≤ c.val) && decide (c.val ≤ 57)) = true := h
      simp only [Bool.or_eq_true, Bool.and_eq_true, decide_eq_true_eq,
        UInt32.le_iff_toNat_le] at h
      rcases h with (h | h) | h
      · exact Or.inr (Or.inr (Or.inl h))
      · exact Or.inr (Or.inr (Or.inr (Or.inr h)))
      · exact Or.inr (Or.inl h)
    · exact Or.inr (Or.inr (Or.inr (Or.inl rfl)))
    · exact Or.inl rfl
  simp only [Text.isBlank, Bool.or_eq_false_iff, Bool.and_eq_false_iff, decide_eq_false_iff_not,
    beq_eq_false_iff_ne]
  omega

theorem isBlank_of_isSpace (h : isSpace c = true) : Text.isBlank c = true := by
  simp only [isSpace, Bool.or_eq_true, beq_iff_eq] at h
  rcases h with (((rfl | rfl) | rfl) | rfl) | rfl <;> rfl

theorem isNameChar_of_isSpace (h : isSpace c = true) : isNameChar c = false := by
  simp only [isSpace, Bool.or_eq_true, beq_iff_eq] at h
  rcases h with (((rfl | rfl) | rfl) | rfl) | rfl <;> rfl

/-- A text before which a name ends. -/
def EndsName (rest : List Char) : Prop := ∀ d ∈ rest.head?, isNameChar d = false

theorem endsName_cons {d : Char} (h : isNameChar d = false) (ds : List Char) :
    EndsName (d :: ds) := by
  rintro e ⟨⟩
  exact h

/-- A text before which a token ends: only words can run on. -/
def EndsToken (w rest : List Char) : Prop := isWord w = true → EndsName rest

theorem isNameChar_of_isWord (hw : isWord w = true) : ∀ d ∈ w, isNameChar d = true := by
  cases w with
  | nil => cases hw
  | cons c cs =>
    simp only [isWord, Bool.and_eq_true, List.all_eq_true] at hw
    exact List.forall_mem_cons.2 ⟨isNameChar_of_isNameStart hw.1, hw.2⟩

/-- A run of name characters ends where the next character is none. -/
theorem takeWhile_isNameChar (hw : ∀ d ∈ w, isNameChar d = true) (hr : EndsName rest) :
    (w ++ rest).takeWhile isNameChar = w := by
  rw [List.takeWhile_append_of_pos hw]
  cases rest with
  | nil => simp
  | cons d ds => simp [hr d rfl]

theorem endsName_of_takeWhile (h : (w ++ rest).takeWhile isNameChar = w) : EndsName rest := by
  have hw : ∀ d ∈ w, isNameChar d = true := by
    intro d hd
    rw [← h] at hd
    exact List.mem_takeWhile_imp hd
  rw [List.takeWhile_append_of_pos hw, List.append_right_eq_self] at h
  intro d hd
  obtain ⟨ds, rfl⟩ := List.head?_eq_some_iff.1 (Option.mem_def.1 hd)
  simpa [List.takeWhile_cons] using h

/-! ### Tables -/

theorem exists_sign_start {e : List Char × Kind} (h : e ∈ signs) :
    ∃ d ds, e.1 = d :: ds ∧ isNameStart d = false ∧ Text.isBlank d = false := by
  have hstart : ∀ e ∈ signs,
      (e.1.head?.any fun d => !isNameStart d && !Text.isBlank d) = true := by
    decide
  obtain ⟨d, hd, hstart⟩ := (Option.any_eq_true ..).1 (hstart e h)
  obtain ⟨ds, hds⟩ := List.head?_eq_some_iff.1 hd
  exact ⟨d, ds, hds, by simpa using hstart⟩

theorem isWord_keyword {e : List Char × Kind} (h : e ∈ keywords) : isWord e.1 = true := by
  have hword : ∀ e ∈ keywords, isWord e.1 = true := by decide
  exact hword e h

/-- No entry of a table is the beginning of another. -/
def EntriesApart (table : List (List Char × Kind)) : Prop :=
  ∀ e ∈ table, ∀ e' ∈ table, e.1 <+: e'.1 → e = e'

instance (table : List (List Char × Kind)) : Decidable (EntriesApart table) :=
  inferInstanceAs (Decidable (∀ e ∈ table, ∀ e' ∈ table, e.1 <+: e'.1 → e = e'))

theorem signs_apart : EntriesApart signs := by
  decide +kernel

theorem keywords_apart : EntriesApart keywords := by
  decide +kernel

theorem frontEntry_append {table : List (List Char × Kind)} (hapart : EntriesApart table)
    (h : (w, k) ∈ table) (ha : allowed k = true) (cs : List Char) :
    frontEntry table allowed (w ++ cs) = some ⟨k, w⟩ := by
  cases ht : frontEntry table allowed (w ++ cs) with
  | none =>
    have hnone := List.find?_eq_none.1 (Option.map_eq_none_iff.1 ht) _ h
    simp [ha] at hnone
  | some t =>
    obtain ⟨hmem, -, hfront⟩ := frontEntry_eq_some ht
    -- both stand at the front, so one of them is the beginning of the other
    have hsame : (w, k) = (t.text, t.kind) := by
      rcases Nat.le_total w.length t.text.length with hle | hle
      · exact hapart _ h _ hmem
          (List.prefix_of_prefix_length_le (List.prefix_append w cs) hfront hle)
      · exact (hapart _ hmem _ h
          (List.prefix_of_prefix_length_le hfront (List.prefix_append w cs) hle)).symm
    cases hsame
    rfl

/-! ### What a token can be -/

theorem text_wordToken (allowed : Kind → Bool) (cs : List Char) :
    (wordToken allowed cs).text = cs.takeWhile isNameChar := by
  rw [wordToken]
  split <;> rfl

/-- Where names can stand, a token is a whole word. Everywhere it can be a sign, and where no names
can stand, a keyword at the front of a word. -/
theorem tokenWhere_cases (h : tokenWhere allowed cs = some t) :
    (allowed .name = true ∧ t = wordToken allowed cs ∧ isWord t.text = true) ∨
      (allowed t.kind = true ∧ t.text <+: cs ∧
        ((t.text, t.kind) ∈ signs ∨ allowed .name = false ∧ (t.text, t.kind) ∈ keywords)) := by
  cases cs with
  | nil => cases h
  | cons c cs =>
    rw [tokenWhere] at h
    split at h
    · next hc =>
      split at h
      · next ha =>
        cases h
        exact Or.inl ⟨ha, rfl, text_wordToken allowed _ ▸ isWord_takeWhile hc⟩
      · next ha =>
        obtain ⟨hmem, hk, hfront⟩ := frontEntry_eq_some h
        exact Or.inr ⟨hk, hfront, Or.inr ⟨by simpa using ha, hmem⟩⟩
    · obtain ⟨hmem, hk, hfront⟩ := frontEntry_eq_some h
      exact Or.inr ⟨hk, hfront, Or.inl hmem⟩

/-- A word is a name unless it is a keyword that is allowed. -/
theorem kind_wordToken (allowed : Kind → Bool) (cs : List Char) :
    (wordToken allowed cs).kind = .name ∨
      allowed (wordToken allowed cs).kind = true ∧
        ((wordToken allowed cs).text, (wordToken allowed cs).kind) ∈ keywords := by
  rw [wordToken]
  split
  · next e he =>
    have hfound := List.find?_some he
    rw [Bool.and_eq_true, beq_iff_eq] at hfound
    refine Or.inr ⟨hfound.1, ?_⟩
    rw [← hfound.2]
    exact List.mem_of_find?_eq_some he
  · exact Or.inl rfl

/-- A token is not empty and stands at the front of the text. -/
theorem tokenWhere_front (h : tokenWhere allowed cs = some t) : t.text ≠ [] ∧ t.text <+: cs := by
  rcases tokenWhere_cases h with ⟨-, ht, hword⟩ | ⟨-, hfront, hmem⟩
  · refine ⟨fun hnil => ?_, ?_⟩
    · rw [hnil] at hword
      cases hword
    · rw [ht, text_wordToken]
      exact List.takeWhile_prefix isNameChar
  · have htables : ∀ e ∈ signs ++ keywords, e.1 ≠ [] := by decide
    exact ⟨htables _ (List.mem_append.2 (hmem.imp_right And.right)), hfront⟩

theorem eq_append_of_tokenWhere (h : tokenWhere allowed (c :: cs) = some t) :
    c :: cs = t.text ++ cs.drop (t.text.length - 1) := by
  obtain ⟨hne, hfront⟩ := tokenWhere_front h
  obtain ⟨d, ds, hds⟩ := List.exists_cons_of_ne_nil hne
  rw [hds] at hfront ⊢
  obtain ⟨rest, hrest⟩ := hfront
  obtain ⟨rfl, rfl⟩ := List.cons.inj hrest
  simp

theorem isBlank_of_tokenWhere (h : tokenWhere allowed (c :: cs) = some t) :
    Text.isBlank c = false := by
  have hword : ∀ {w : List Char}, isWord w = true → w <+: c :: cs → Text.isBlank c = false := by
    intro w hw hfront
    cases w with
    | nil => cases hw
    | cons d ds =>
      simp only [isWord, Bool.and_eq_true] at hw
      exact (List.cons_prefix_cons.1 hfront).1 ▸
        isBlank_of_isNameChar (isNameChar_of_isNameStart hw.1)
  have hfront := (tokenWhere_front h).2
  rcases tokenWhere_cases h with ⟨-, -, hw⟩ | ⟨-, -, hmem | ⟨-, hmem⟩⟩
  · exact hword hw hfront
  · obtain ⟨d, ds, hds, -, hb⟩ := exists_sign_start hmem
    have hds : t.text = d :: ds := hds
    rw [hds] at hfront
    exact (List.cons_prefix_cons.1 hfront).1 ▸ hb
  · exact hword (isWord_keyword hmem) hfront

theorem isSpace_of_tokenWhere (h : tokenWhere allowed (c :: cs) = some t) : isSpace c = false := by
  by_contra hno
  have := isBlank_of_tokenWhere h
  simp [isBlank_of_isSpace (Bool.of_not_eq_false hno)] at this

/-! ### Which token stands at the front -/

theorem tokenWhere_sign (h : (w, k) ∈ signs) (ha : allowed k = true) (cs : List Char) :
    tokenWhere allowed (w ++ cs) = some ⟨k, w⟩ := by
  have hentry := frontEntry_append signs_apart h ha cs
  obtain ⟨d, ds, hds, hstart, -⟩ := exists_sign_start h
  have hds : w = d :: ds := hds
  subst hds
  rw [List.cons_append, tokenWhere, if_neg (by simp [hstart])]
  exact hentry

/-- Where no name can stand, a keyword is found even if the word goes on. -/
theorem tokenWhere_keyword (h : (w, k) ∈ keywords) (ha : allowed k = true)
    (hn : allowed .name = false) (cs : List Char) :
    tokenWhere allowed (w ++ cs) = some ⟨k, w⟩ := by
  have hentry := frontEntry_append keywords_apart h ha cs
  have hw : isWord w = true := isWord_keyword h
  cases w with
  | nil => cases hw
  | cons c ds =>
    simp only [isWord, Bool.and_eq_true] at hw
    rw [List.cons_append, tokenWhere, if_pos hw.1, if_neg (by simp [hn])]
    exact hentry

theorem tokenWhere_word (hw : isWord w = true) (hr : EndsName rest) (ha : allowed .name = true) :
    tokenWhere allowed (w ++ rest) = some (wordToken allowed w) := by
  have htake := takeWhile_isNameChar (isNameChar_of_isWord hw) hr
  have hself := List.takeWhile_eq_self_iff.2 (isNameChar_of_isWord hw)
  cases w with
  | nil => cases hw
  | cons c cs =>
    simp only [isWord, Bool.and_eq_true] at hw
    rw [List.cons_append] at htake ⊢
    rw [tokenWhere, if_pos hw.1, if_pos ha, wordToken, wordToken, htake, hself]

theorem wordToken_eq_name (hw : isWord w = true)
    (hk : ∀ e ∈ keywords, allowed e.2 = true → e.1 ≠ w) : wordToken allowed w = ⟨.name, w⟩ := by
  have htake := List.takeWhile_eq_self_iff.2 (isNameChar_of_isWord hw)
  have hfind : keywords.find? (fun e => allowed e.2 && e.1 == w) = none := by
    refine List.find?_eq_none.2 fun e he => ?_
    simp only [Bool.and_eq_true, beq_iff_eq, not_and]
    exact hk e he
  simp only [wordToken, htake, hfind]

theorem wordToken_eq_keyword (h : (w, k) ∈ keywords) (ha : allowed k = true) :
    wordToken allowed w = ⟨k, w⟩ := by
  have htake := List.takeWhile_eq_self_iff.2 (isNameChar_of_isWord (isWord_keyword h))
  rw [wordToken, htake]
  cases hfind : keywords.find? fun e => allowed e.2 && e.1 == w with
  | none =>
    have hnone := List.find?_eq_none.1 hfind _ h
    simp [ha] at hnone
  | some e =>
    have hfound := List.find?_some hfind
    simp only [Bool.and_eq_true, beq_iff_eq] at hfound
    have hsame := keywords_apart _ (List.mem_of_find?_eq_some hfind) _ h
      (hfound.2 ▸ List.prefix_rfl)
    rw [hsame]

theorem tokenWhere_name (hw : isWord w = true) (hr : EndsName rest) (ha : allowed .name = true)
    (hk : ∀ e ∈ keywords, allowed e.2 = true → e.1 ≠ w) :
    tokenWhere allowed (w ++ rest) = some ⟨.name, w⟩ := by
  rw [tokenWhere_word hw hr ha, wordToken_eq_name hw hk]

/-- Where its kind is allowed, a sign or keyword is taken for what it is. -/
theorem tokenWhere_spelling (h : (w, k) ∈ signs ++ keywords) (ha : allowed k = true)
    (hr : EndsToken w rest) : tokenWhere allowed (w ++ rest) = some ⟨k, w⟩ := by
  rcases List.mem_append.1 h with h | h
  · exact tokenWhere_sign h ha rest
  · have hw : isWord w = true := isWord_keyword h
    cases hn : allowed .name with
    | true => rw [tokenWhere_word hw (hr hw) hn, wordToken_eq_keyword h ha]
    | false => exact tokenWhere_keyword h ha hn rest

/-- Another text may follow a token if a name ends before it. -/
theorem tokenWhere_swap {rest' : List Char} (h : tokenWhere allowed (t.text ++ rest) = some t)
    (hr : EndsName rest → EndsName rest') : tokenWhere allowed (t.text ++ rest') = some t := by
  rcases tokenWhere_cases h with ⟨ha, ht, hw⟩ | ⟨ha, -, hmem | ⟨hn, hmem⟩⟩
  · have htext := text_wordToken allowed (t.text ++ rest)
    rw [← ht] at htext
    have hends := endsName_of_takeWhile htext.symm
    rw [tokenWhere_word hw hends ha] at h
    rw [tokenWhere_word hw (hr hends) ha, h]
  · exact tokenWhere_sign hmem ha rest'
  · exact tokenWhere_keyword hmem ha hn rest'

end Notation

end Elenchus

import Elenchus.Notation.Reader
import Elenchus.Proofs.Renderings

/-! Formulas kept one on a line: two readers agree, and a file that was written is read back. -/

namespace Elenchus

namespace Text

variable {p q : Char → Bool} {c : Char} {cs line : List Char}

/-! ### Lines -/

theorem isBlank_of_isLineFeed (h : isLineFeed c = true) : isBlank c = true := by
  rw [isLineFeed, Bool.or_eq_true, beq_iff_eq, beq_iff_eq] at h
  rcases h with rfl | rfl <;> rfl

/-- Lines depend on what the characters of the text are, and on no others. -/
theorem linesBy_congr (h : ∀ c ∈ cs, p c = q c) : linesBy p line cs = linesBy q line cs := by
  fun_induction linesBy p line cs with
  | case1 => rfl
  | case2 line hne => rw [linesBy]; exact hne
  | case3 line cs hend ih =>
    have hq : q '\r' = true := (h '\r' (by simp)).symm.trans hend
    rw [linesBy, if_pos hq, ih fun c hc => h c (by simp [hc])]
  | case4 line cs hend ih =>
    have hq : ¬ q '\r' = true := fun hq => hend ((h '\r' (by simp)).trans hq)
    rw [linesBy, if_neg hq, ih fun c hc => h c (List.mem_cons_of_mem _ hc)]
  | case5 line c cs hcr hend ih =>
    have hq : q c = true := (h c (by simp)).symm.trans hend
    rw [linesBy, if_pos hq, ih fun c hc => h c (List.mem_cons_of_mem _ hc)]
    exact hcr
  | case6 line c cs hcr hend ih =>
    have hq : ¬ q c = true := fun hq => hend ((h c (by simp)).trans hq)
    rw [linesBy, if_neg hq, ih fun c hc => h c (List.mem_cons_of_mem _ hc)]
    exact hcr

theorem textLines_eq (h : ∀ c ∈ cs, isLineEnd c = true → c = '\n' ∨ c = '\r') :
    textLines cs = fileLines cs := by
  refine linesBy_congr fun c hc => Bool.eq_iff_iff.2 ⟨fun hend => ?_, fun hfeed => ?_⟩
  · rcases h c hc hend with rfl | rfl <;> rfl
  · rw [isLineFeed, Bool.or_eq_true, beq_iff_eq, beq_iff_eq] at hfeed
    rcases hfeed with rfl | rfl <;> rfl

theorem linesBy_feed (h : ∀ c ∈ cs, isLineFeed c = false) (line rest : List Char) :
    linesBy isLineFeed line (cs ++ '\n' :: rest) =
      (line.reverse ++ cs) :: linesBy isLineFeed [] rest := by
  induction cs generalizing line with
  | nil => simp [linesBy, isLineFeed]
  | cons c cs ih =>
    obtain ⟨hc, hcs⟩ := List.forall_mem_cons.1 h
    rw [List.cons_append, linesBy, hc, if_neg (by decide), ih hcs]
    · simp
    · rintro rest' rfl -
      cases hc

/-- Lines that are written with a line feed after each are the lines of the file. -/
theorem fileLines_flatMap {lines : List (List Char)}
    (h : ∀ line ∈ lines, ∀ c ∈ line, isLineFeed c = false) :
    fileLines (lines.flatMap (· ++ ['\n'])) = lines := by
  induction lines with
  | nil => rfl
  | cons line lines ih =>
    obtain ⟨hline, hlines⟩ := List.forall_mem_cons.1 h
    have hrest : linesBy isLineFeed [] (lines.flatMap (· ++ ['\n'])) = lines := ih hlines
    rw [fileLines, List.flatMap_cons, List.append_assoc, List.singleton_append,
      linesBy_feed hline, hrest, List.reverse_nil, List.nil_append]

/-! ### Outer blanks -/

theorem dropWhile_isBlank_cons (hc : isBlank c = false) (cs : List Char) :
    (c :: cs).dropWhile isBlank = c :: cs :=
  List.dropWhile_cons_of_neg (by simp [hc])

/-- A line starts, without its outer blanks, with its first character that is no blank. -/
theorem head?_strip (line : List Char) :
    (strip line).head? = line.find? fun c => !isBlank c := by
  have hfind : (line.find? fun c => !isBlank c) = (line.dropWhile isBlank).head? := by
    simpa using List.find?_eq_head?_dropWhile_not (fun c => !isBlank c) line
  rw [hfind, strip]
  cases hd : line.dropWhile isBlank with
  | nil => rfl
  | cons c cs =>
    have hc : isBlank c = false := by
      have hhead := List.head?_dropWhile_not isBlank line
      rw [hd] at hhead
      simpa using hhead
    rw [List.reverse_cons, List.dropWhile_append, dropWhile_isBlank_cons hc]
    split <;> simp

end Text

namespace Notation

open Formula

variable {f : Formula} {e : ParseError} {a b cs line : List Char} {lines : List (List Char)}
  {rest : List (List Char × Nat)} {n : Nat}

/-! ### Lines that hold a formula -/

/-- The first character that is no blank starts no comment. -/
def holdsFormula (line : List Char) : Bool :=
  (line.find? fun c => !Text.isBlank c).any (· != '#')

theorem isFormulaLine_strip (line : List Char) :
    isFormulaLine (Text.strip line) = holdsFormula line := by
  rw [holdsFormula, ← Text.head?_strip, isFormulaLine]
  cases Text.strip line <;> rfl

theorem readLines_skip (h : holdsFormula line = false) :
    readLines ((line, n) :: rest) = readLines rest := by
  simp [readLines, isFormulaLine_strip, h]

theorem readLines_accept (h : holdsFormula line = true)
    (hf : parseChars (Text.strip line) = .ok f) :
    readLines ((line, n) :: rest) = (readLines rest).map (f :: ·) := by
  simp [readLines, isFormulaLine_strip, h, hf]

theorem readLines_refuse (h : holdsFormula line = true)
    (he : parseChars (Text.strip line) = .error e) :
    readLines ((line, n) :: rest) = .error (e, n) := by
  simp [readLines, isFormulaLine_strip, h, he]

/-- Each line that holds a formula is read as the formula in its place. -/
def AllRead (lines : List (List Char)) (fs : List Formula) : Prop :=
  List.Forall₂ (fun line f => parseChars (Text.strip line) = .ok f) (lines.filter holdsFormula) fs

/-- Line `n`, counted from 1, is the first that holds a formula and is refused. -/
def FirstRefused (lines : List (List Char)) (n : Nat) (e : ParseError) : Prop :=
  ∃ before line after, lines = before ++ line :: after ∧ n = before.length + 1 ∧
    holdsFormula line = true ∧ parseChars (Text.strip line) = .error e ∧
    ∃ fs, AllRead before fs

theorem FirstRefused.here (h : holdsFormula line = true)
    (he : parseChars (Text.strip line) = .error e) (lines : List (List Char)) :
    FirstRefused (line :: lines) 1 e :=
  ⟨[], line, lines, rfl, rfl, h, he, [], .nil⟩

theorem FirstRefused.later (h : FirstRefused lines n e)
    (hline : holdsFormula line = true → ∃ f, parseChars (Text.strip line) = .ok f) :
    FirstRefused (line :: lines) (n + 1) e := by
  obtain ⟨before, line', after, rfl, rfl, hl, he, fs, hfs⟩ := h
  refine ⟨line :: before, line', after, rfl, rfl, hl, he, ?_⟩
  cases hh : holdsFormula line with
  | false => exact ⟨fs, by simpa [AllRead, hh] using hfs⟩
  | true =>
    obtain ⟨f, hf⟩ := hline hh
    exact ⟨f :: fs, by simpa [AllRead, hh, hf] using hfs⟩

/-- Numbered lines are all read, or the first that is refused is named. -/
theorem readLines_cases (lines : List (List Char)) (k : Nat) :
    (∃ fs, readLines (lines.zipIdx (k + 1)) = .ok fs ∧ AllRead lines fs) ∨
      ∃ e n, readLines (lines.zipIdx (k + 1)) = .error (e, k + n) ∧ FirstRefused lines n e := by
  induction lines generalizing k with
  | nil => exact Or.inl ⟨[], rfl, .nil⟩
  | cons line lines ih =>
    rw [List.zipIdx_cons]
    cases hh : holdsFormula line with
    | false =>
      rw [readLines_skip hh]
      obtain ⟨fs, hr, hfs⟩ | ⟨e, n, hr, hn⟩ := ih (k + 1)
      · exact Or.inl ⟨fs, hr, by simpa [AllRead, hh] using hfs⟩
      · refine Or.inr ⟨e, n + 1, ?_, hn.later (by simp [hh])⟩
        rw [hr, Nat.add_assoc, Nat.add_comm 1 n]
    | true =>
      cases hp : parseChars (Text.strip line) with
      | error e => exact Or.inr ⟨e, 1, readLines_refuse hh hp, .here hh hp lines⟩
      | ok f =>
        rw [readLines_accept hh hp]
        obtain ⟨fs, hr, hfs⟩ | ⟨e, n, hr, hn⟩ := ih (k + 1)
        · refine Or.inl ⟨f :: fs, by rw [hr]; rfl, ?_⟩
          simpa [AllRead, hh, hp] using hfs
        · refine Or.inr ⟨e, n + 1, ?_, hn.later fun _ => ⟨f, hp⟩⟩
          rw [hr, Nat.add_assoc, Nat.add_comm 1 n]
          rfl

/-! ### Messages -/

/-- A single formula is refused without the number of a line. -/
theorem fileLine_of_parseChars (h : parseChars cs = .error e) : e.fileLine = none := by
  rw [parseChars] at h
  split at h
  · cases h
    rfl
  · split at h <;> cases h
    rfl

theorem message_of_fileLine (h : e.fileLine = none) :
    e.message = "Parse error at position " ++ e.position.repr ++ ": " ++ e.detail := by
  unfold ParseError.message
  rw [h]
  exact congrArg (· ++ e.detail) String.append_empty

theorem message_fileLine (e : ParseError) (n : Nat) :
    ParseError.message { e with fileLine := some n } =
      "Parse error at position " ++ e.position.repr ++ ": " ++
        ("line " ++ n.repr ++ ": " ++ e.detail) := by
  unfold ParseError.message
  exact String.append_assoc

/-! ### Printed lines -/

/-- A line that is not changed by taking off blanks, is no comment and does not end early. -/
structure IsPrinted (cs : List Char) : Prop where
  head : ∃ c rest, cs = c :: rest ∧ Text.isBlank c = false ∧ c ≠ '#'
  last : ∃ front d, cs = front ++ [d] ∧ Text.isBlank d = false
  unbroken : ∀ c ∈ cs, Text.isLineFeed c = false

theorem isLineFeed_of_isBlank {c : Char} (h : Text.isBlank c = false) :
    Text.isLineFeed c = false := by
  by_contra hfeed
  rw [Text.isBlank_of_isLineFeed (Bool.of_not_eq_false hfeed)] at h
  cases h

theorem isPrinted_sign {c : Char} (hb : Text.isBlank c = false) (hc : c ≠ '#') :
    IsPrinted [c] :=
  ⟨⟨c, [], rfl, hb, hc⟩, ⟨[], c, rfl, hb⟩, by simpa using isLineFeed_of_isBlank hb⟩

theorem isPrinted_word (hw : isWord cs = true) : IsPrinted cs := by
  have hblank : ∀ d ∈ cs, Text.isBlank d = false := fun d hd =>
    isBlank_of_isNameChar (isNameChar_of_isWord hw d hd)
  cases cs with
  | nil => cases hw
  | cons c cs =>
    refine ⟨⟨c, cs, rfl, hblank c (by simp), ?_⟩, ?_,
      fun d hd => isLineFeed_of_isBlank (hblank d hd)⟩
    · rintro rfl
      cases hw
    · refine ⟨(c :: cs).dropLast, (c :: cs).getLast (by simp), ?_, hblank _ (List.getLast_mem _)⟩
      exact (List.dropLast_concat_getLast _).symm

/-- Between printed ends anything may stand that has no line feed. -/
theorem IsPrinted.around (ha : IsPrinted a) (hb : IsPrinted b)
    (hcs : ∀ c ∈ cs, Text.isLineFeed c = false) : IsPrinted (a ++ (cs ++ b)) := by
  obtain ⟨c, rest, rfl, hc⟩ := ha.head
  obtain ⟨front, d, rfl, hd⟩ := hb.last
  refine ⟨⟨c, rest ++ (cs ++ (front ++ [d])), rfl, hc⟩,
    ⟨c :: rest ++ (cs ++ front), d, by simp, hd⟩, ?_⟩
  simp only [List.forall_mem_append]
  exact ⟨ha.unbroken, hcs, List.forall_mem_append.1 hb.unbroken⟩

theorem IsPrinted.append (ha : IsPrinted a) (hb : IsPrinted b) : IsPrinted (a ++ b) :=
  ha.around hb (List.forall_mem_nil _)

section

variable {t : Term} {ts : List Term} {g : Formula}

theorem unbroken_textRest (h : ∀ t ∈ ts, IsPrinted t.text.toList) :
    ∀ c ∈ (Term.textRest ts).toList, Text.isLineFeed c = false := by
  induction ts with
  | nil => simp [Term.textRest]
  | cons t ts ih =>
    obtain ⟨ht, hts⟩ := List.forall_mem_cons.1 h
    have htext : (Term.textRest (t :: ts)).toList =
        ',' :: ' ' :: (t.text.toList ++ (Term.textRest ts).toList) := by
      simp [Term.textRest]
    rw [htext, List.forall_mem_cons, List.forall_mem_cons, List.forall_mem_append]
    exact ⟨rfl, rfl, ht.unbroken, ih hts⟩

/-- A name with its arguments. -/
theorem isPrinted_call {w : String} (hw : isWord w.toList = true)
    (h : ∀ t ∈ ts, IsPrinted t.text.toList) : IsPrinted (Term.app w ts).text.toList := by
  cases ts with
  | nil => exact isPrinted_word hw
  | cons t ts =>
    obtain ⟨ht, hts⟩ := List.forall_mem_cons.1 h
    have htext : (Term.app w (t :: ts)).text.toList =
        w.toList ++ ('(' :: (t.text.toList ++ (Term.textRest ts).toList) ++ [')']) := by
      simp [Term.text]
    rw [htext]
    refine (isPrinted_word hw).around (isPrinted_sign rfl (by decide)) ?_
    rw [List.forall_mem_cons, List.forall_mem_append]
    exact ⟨rfl, ht.unbroken, unbroken_textRest hts⟩

theorem isPrinted_term (h : t.isReadable = true) : IsPrinted t.text.toList := by
  induction t with
  | var x =>
    simp only [Term.isReadable, isVariable, Bool.and_eq_true] at h
    exact isPrinted_word h.1
  | app w ts ih =>
    cases ts with
    | nil =>
      simp only [Term.isReadable, isConstant, Bool.and_eq_true] at h
      exact isPrinted_word h.1
    | cons t ts =>
      simp only [Term.isReadable, Bool.and_eq_true, Term.areReadable_iff] at h
      obtain ⟨⟨hw, ht⟩, hts⟩ := h
      have hall : ∀ u ∈ t :: ts, u.isReadable = true := List.forall_mem_cons.2 ⟨ht, hts⟩
      exact isPrinted_call hw fun u hu => ih u hu (hall u hu)

theorem isPrinted_join (o : Connective) (hf : IsPrinted (renderIn o.left f).toList)
    (hg : IsPrinted (renderIn o.right g).toList) (n : Nat) :
    IsPrinted (renderIn n (o.join f g)).toList := by
  have hsign : ∀ c ∈ [' ', o.sign, ' '], Text.isLineFeed c = false := by
    cases o <;> simp [Connective.sign, Text.isLineFeed]
  have hbody : IsPrinted (o.body f g) := hf.around hg hsign
  rw [o.toList_renderIn]
  split
  · exact (isPrinted_sign rfl (by decide)).around (isPrinted_sign rfl (by decide)) hbody.unbroken
  · exact hbody

theorem isPrinted_binder {q : Char} {x : String} (hq : IsPrinted [q]) (hx : isVariable x = true)
    (hf : IsPrinted (renderIn 5 f).toList) :
    IsPrinted (q :: (x.toList ++ ' ' :: (renderIn 5 f).toList)) := by
  rw [isVariable, Bool.and_eq_true] at hx
  have hspace : ∀ c ∈ [' '], Text.isLineFeed c = false := by simp [Text.isLineFeed]
  exact hq.append ((isPrinted_word hx.1).around hf hspace)

theorem isPrinted_formula (h : f.isReadable = true) (n : Nat) :
    IsPrinted (renderIn n f).toList := by
  induction f generalizing n with
  | atomic a =>
    simp only [Formula.isReadable, isPredicate, Bool.and_eq_true, Term.areReadable_iff] at h
    exact isPrinted_call h.1.1.1.1 fun t ht => isPrinted_term (h.2 t ht)
  | not f ih =>
    have hsign : IsPrinted ['¬'] := isPrinted_sign (by decide) (by decide)
    simpa [renderIn] using hsign.append (ih h 5)
  | and f g ihf ihg =>
    simp only [Formula.isReadable, Bool.and_eq_true] at h
    exact isPrinted_join .and (ihf h.1 _) (ihg h.2 _) n
  | or f g ihf ihg =>
    simp only [Formula.isReadable, Bool.and_eq_true] at h
    exact isPrinted_join .or (ihf h.1 _) (ihg h.2 _) n
  | implies f g ihf ihg =>
    simp only [Formula.isReadable, Bool.and_eq_true] at h
    exact isPrinted_join .implies (ihf h.1 _) (ihg h.2 _) n
  | iff f g ihf ihg =>
    simp only [Formula.isReadable, Bool.and_eq_true] at h
    exact isPrinted_join .iff (ihf h.1 _) (ihg h.2 _) n
  | all b f ih =>
    cases b with
    | other i => cases h
    | var x =>
      simp only [Formula.isReadable, Bool.and_eq_true] at h
      have hsign : IsPrinted ['∀'] := isPrinted_sign (by decide) (by decide)
      simpa [renderIn, Binder.name?] using isPrinted_binder hsign h.1 (ih h.2 5)
  | ex b f ih =>
    cases b with
    | other i => cases h
    | var x =>
      simp only [Formula.isReadable, Bool.and_eq_true] at h
      have hsign : IsPrinted ['∃'] := isPrinted_sign (by decide) (by decide)
      simpa [renderIn, Binder.name?] using isPrinted_binder hsign h.1 (ih h.2 5)
  | stray i => cases h

end

/-! ### Reading back -/

theorem IsPrinted.strip_eq (h : IsPrinted cs) : Text.strip cs = cs := by
  obtain ⟨c, rest, rfl, hc, -⟩ := h.head
  obtain ⟨front, d, hlast, hd⟩ := h.last
  rw [Text.strip, Text.dropWhile_isBlank_cons hc, hlast, List.reverse_concat,
    Text.dropWhile_isBlank_cons hd, List.reverse_cons, List.reverse_reverse]

theorem IsPrinted.holdsFormula_eq (h : IsPrinted cs) : holdsFormula cs = true := by
  obtain ⟨c, rest, rfl, hb, hc⟩ := h.head
  simp [holdsFormula, hb, hc]

theorem readLines_render {fs : List Formula} (h : ∀ f ∈ fs, f.isReadable = true) (k : Nat) :
    readLines ((fs.map fun f => f.render.toList).zipIdx k) = .ok fs := by
  induction fs generalizing k with
  | nil => rfl
  | cons f fs ih =>
    obtain ⟨hf, hfs⟩ := List.forall_mem_cons.1 h
    have hline : IsPrinted f.render.toList := isPrinted_formula hf 0
    have hparse : parseChars (Text.strip f.render.toList) = .ok f := by
      rw [hline.strip_eq]
      exact parse_of_isReadable hf
    rw [List.map_cons, List.zipIdx_cons, readLines_accept hline.holdsFormula_eq hparse, ih hfs]
    rfl

theorem toList_fileText (fs : List Formula) :
    (fileText fs).toList = (fs.map fun f => f.render.toList).flatMap (· ++ ['\n']) := by
  simp [fileText, String.toList_join, List.flatMap_map]

theorem parseFile_fileText {fs : List Formula} (h : ∀ f ∈ fs, f.isReadable = true) :
    parseFile (fileText fs) = .ok fs := by
  have hlines : Text.fileLines (fileText fs).toList = fs.map fun f => f.render.toList := by
    rw [toList_fileText]
    refine Text.fileLines_flatMap fun line hline => ?_
    obtain ⟨f, hf, rfl⟩ := List.mem_map.1 hline
    exact (isPrinted_formula (h f hf) 0).unbroken
  rw [parseFile, hlines, readLines_render h]
  rfl

/-! ### The two readers -/

/-- A text and a file with the same lines are read as the same formulas, or refused for the same
fault, to which the file's reader adds the number of the line. What is written to a file is read
back from it. -/
theorem readers_agree_and_undo_writing {content : String}
    (hends : ∀ c ∈ content.toList, Text.isLineEnd c = true → c = '\n' ∨ c = '\r')
    {fs : List Formula} (hfs : ∀ f ∈ fs, f.isReadable = true) :
    ((∃ gs, parseText content = .ok gs ∧ parseFile content = .ok gs ∧
        AllRead (Text.fileLines content.toList) gs) ∨
      ∃ e e' n said, parseText content = .error e ∧ parseFile content = .error e' ∧
        FirstRefused (Text.fileLines content.toList) n e ∧ e'.fileLine = some n ∧
        e'.position = e.position ∧
        e.message = "Parse error at position " ++ e.position.repr ++ ": " ++ said ∧
        e'.message = "Parse error at position " ++ e.position.repr ++ ": " ++
          ("line " ++ n.repr ++ ": " ++ said)) ∧
      parseFile (fileText fs) = .ok fs := by
  refine ⟨?_, parseFile_fileText hfs⟩
  rw [parseText, parseFile, Text.textLines_eq hends]
  obtain ⟨gs, hr, hgs⟩ | ⟨e, n, hr, hn⟩ := readLines_cases (Text.fileLines content.toList) 0
  · exact Or.inl ⟨gs, by rw [hr]; rfl, by rw [hr]; rfl, hgs⟩
  · simp only [Nat.zero_add] at hr
    have hnone : e.fileLine = none := by
      obtain ⟨_, _, _, -, -, -, he, -⟩ := hn
      exact fileLine_of_parseChars he
    exact Or.inr ⟨e, { e with fileLine := some n }, n, e.detail, by rw [hr]; rfl, by rw [hr]; rfl,
      hn, rfl, rfl, message_of_fileLine hnone, message_fileLine e n⟩

/-- All three ends of lines, a comment, a blank line, and a formula that breaks off. -/
def mixedEnds : String := "# laws\r\n\r  ∀x (P(x) → Q(x))  \n\tP(a) ∧ (Q(a)\rR"

theorem readers_agree_and_undo_writing_mixedEnds :
    (∀ c ∈ mixedEnds.toList, Text.isLineEnd c = true → c = '\n' ∨ c = '\r') ∧
      (∀ f ∈ [keywordNames, .atomic ⟨"P'", []⟩], f.isReadable = true) ∧
      (∃ e e', parseText mixedEnds = .error e ∧ parseFile mixedEnds = .error e' ∧
        FirstRefused (Text.fileLines mixedEnds.toList) 4 e ∧ e'.position = e.position) ∧
      parseFile (fileText [keywordNames, .atomic ⟨"P'", []⟩]) =
        .ok [keywordNames, .atomic ⟨"P'", []⟩] := by
  have hends : ∀ c ∈ mixedEnds.toList, Text.isLineEnd c = true → c = '\n' ∨ c = '\r' := by
    have hall : mixedEnds.toList.all
        (fun c => !Text.isLineEnd c || (c == '\n' || c == '\r')) = true := by
      decide +kernel
    intro c hc hend
    simpa [hend] using List.all_eq_true.1 hall c hc
  have hfs : ∀ f ∈ [keywordNames, .atomic ⟨"P'", []⟩], f.isReadable = true := by decide +kernel
  obtain ⟨hread, hwritten⟩ := readers_agree_and_undo_writing hends hfs
  refine ⟨hends, hfs, ?_, hwritten⟩
  have hfile : ((parseFile mixedEnds).map fun _ => ()).mapError (·.fileLine) = .error (some 4) := by
    decide +kernel
  obtain ⟨gs, -, hok, -⟩ | ⟨e, e', n, said, htext, hfail, hn, hline, hpos, -⟩ := hread
  · rw [hok] at hfile
    cases hfile
  · rw [hfail] at hfile
    have hfour : e'.fileLine = some 4 := Except.error.inj hfile
    rw [hline, Option.some_inj] at hfour
    exact ⟨e, e', htext, hfail, hfour ▸ hn, hpos⟩

end Notation

end Elenchus

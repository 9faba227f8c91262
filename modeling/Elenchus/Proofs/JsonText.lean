import Elenchus.Json.Basic
import Elenchus.Json.Reader
import Elenchus.Proofs.Evaluation

/-!
Reading JSON text that was written here. Main statement: a value without floating-point numbers is
read back as it was, on one line or with any indentation made of space.
-/

namespace Elenchus.Json

variable {cs rest : List Char} {indent : Option String} {level steps : Nat}

/-! ### Space -/

/-- Nothing but space. -/
def IsBlank (cs : List Char) : Prop := ∀ c ∈ cs, isSpace c = true

theorem skipSpace_append (h : IsBlank cs) (rest : List Char) :
    skipSpace (cs ++ rest) = skipSpace rest :=
  List.dropWhile_append_of_pos h

theorem skipSpace_cons {c : Char} (h : isSpace c = false) (cs : List Char) :
    skipSpace (c :: cs) = c :: cs := by
  rw [skipSpace, List.dropWhile_cons_of_neg (by simp [h])]

theorem skipSpace_append_cons (hcs : IsBlank cs) {c : Char} (h : isSpace c = false)
    (rest : List Char) : skipSpace (cs ++ c :: rest) = c :: rest := by
  rw [skipSpace_append hcs, skipSpace_cons h]

/-- An indentation that is read as space. -/
def IsIndent (indent : Option String) : Prop := ∀ s ∈ indent, IsBlank s.toList

theorem isBlank_lineStart (h : IsIndent indent) (level : Nat) :
    IsBlank (lineStart indent level).toList := by
  cases indent with
  | none => simp [lineStart, IsBlank]
  | some s =>
    intro c hc
    rw [lineStart, String.toList_append, String.toList_join] at hc
    rcases List.mem_append.1 hc with hc | hc
    · obtain rfl : c = '\n' := by simpa using hc
      rfl
    · obtain ⟨t, ht, hct⟩ := List.mem_flatMap.1 hc
      rw [List.eq_of_mem_replicate ht] at hct
      exact h s rfl c hct

/-- What stands between two items after the comma. -/
def gap (indent : Option String) (level : Nat) : List Char :=
  match indent with
  | none => [' ']
  | some s => (lineStart (some s) level).toList

theorem toList_separator (indent : Option String) (level : Nat) :
    (separator indent level).toList = ',' :: gap indent level := by
  cases indent <;> simp [separator, gap]

theorem isBlank_gap (h : IsIndent indent) (level : Nat) : IsBlank (gap indent level) := by
  cases indent with
  | none => simp [gap, IsBlank, isSpace]
  | some s => exact isBlank_lineStart h level

/-! ### Numbers -/

/-- What may come after a value: nothing that goes on with a number. -/
def Ends (rest : List Char) : Prop :=
  ∀ c cs, rest = c :: cs → c.isDigit = false ∧ c ≠ '.' ∧ c ≠ 'e' ∧ c ≠ 'E'

theorem ends_nil : Ends [] := by
  intro c cs h
  cases h

theorem ends_cons {c : Char} (h : c.isDigit = false ∧ c ≠ '.' ∧ c ≠ 'e' ∧ c ≠ 'E')
    (cs : List Char) : Ends (c :: cs) := by
  intro d ds he
  cases he
  exact h

theorem ends_of_isSpace {c : Char} (h : isSpace c = true) (cs : List Char) : Ends (c :: cs) := by
  refine ends_cons ?_ cs
  simp only [isSpace, Bool.or_eq_true, beq_iff_eq] at h
  rcases h with ((rfl | rfl) | rfl) | rfl <;> decide

theorem Ends.append (h : IsBlank cs) (hr : Ends rest) : Ends (cs ++ rest) := by
  cases cs with
  | nil => exact hr
  | cons c cs => exact ends_of_isSpace (h c (by simp)) (cs ++ rest)

theorem natOf_toDigits (n : Nat) : natOf (Nat.toDigits 10 n) = n := by
  have hfold : ∀ ds : List Char, natOf ds = Nat.ofDigitChars 10 ds 0 := by
    intro ds
    simp only [natOf, Nat.ofDigitChars, Nat.mul_comm]
  rw [hfold, Nat.ofDigitChars_ten_toDigits]

/-- Only zero is written with a zero in front. -/
theorem toDigits_head (n : Nat) {ds : List Char} (h : Nat.toDigits 10 n = '0' :: ds) : ds = [] := by
  induction n using Nat.strongRecOn generalizing ds with
  | ind n ih =>
    by_cases hn : n < 10
    · rw [Nat.toDigits_of_lt_base hn] at h
      exact (List.cons.inj h).2.symm
    · rw [Nat.toDigits_of_base_le (by omega) (by omega)] at h
      cases hd : Nat.toDigits 10 (n / 10) with
      | nil => exact absurd hd Nat.toDigits_ne_nil
      | cons c cs =>
        rw [hd] at h
        obtain ⟨rfl, -⟩ := List.cons.inj h
        obtain rfl := ih (n / 10) (by omega) hd
        have hzero : n / 10 = 0 := by rw [← natOf_toDigits (n / 10), hd]; rfl
        omega

theorem readFraction_of_ends (h : Ends rest) : readFraction rest = ([], rest) := by
  cases rest with
  | nil => rfl
  | cons c cs =>
    obtain ⟨-, hpoint, -⟩ := h c cs rfl
    rw [readFraction]
    rintro ds ⟨⟩
    exact hpoint rfl

theorem readExponent_of_ends (h : Ends rest) : readExponent rest = (none, rest) := by
  cases rest with
  | nil => rfl
  | cons c cs =>
    obtain ⟨-, -, he, hE⟩ := h c cs rfl
    simp [readExponent, he, hE]

/-- Digits without a zero in front, unless there is nothing else. -/
structure IsNumeral (ds : List Char) : Prop where
  digits : ∀ c ∈ ds, c.isDigit = true
  nonempty : ds ≠ []
  leading : ∀ es, ds = '0' :: es → es = []

theorem isNumeral_toDigits (n : Nat) : IsNumeral (Nat.toDigits 10 n) :=
  ⟨fun _ hc => Nat.isDigit_of_mem_toDigits (by omega) (by omega) hc, Nat.toDigits_ne_nil,
    fun _ => toDigits_head n⟩

theorem takeWhile_of_ends {ds : List Char} (hds : IsNumeral ds) (hr : Ends rest) :
    (ds ++ rest).takeWhile Char.isDigit = ds := by
  rw [List.takeWhile_append_of_pos hds.digits]
  cases rest with
  | nil => simp
  | cons c cs => simp [(hr c cs rfl).1]

theorem readNumber_numeral {ds : List Char} (hds : IsNumeral ds) (hr : Ends rest) :
    readNumber (ds ++ rest) = some (.int (natOf ds), rest) ∧
      readNumber ('-' :: ds ++ rest) = some (.int (-natOf ds), rest) := by
  have htake := takeWhile_of_ends hds hr
  obtain ⟨digits, nonempty, leading⟩ := hds
  cases ds with
  | nil => exact absurd rfl nonempty
  | cons d ds =>
    have hd := digits d (by simp)
    by_cases hzero : d = '0'
    · obtain rfl := leading ds (by rw [hzero])
      subst hzero
      simp [readNumber, readFraction_of_ends hr, readExponent_of_ends hr]
    · have hminus : d ≠ '-' := by
        rintro rfl
        exact absurd hd (by decide)
      have hno : ∀ c : Char, d ≠ c → ∀ es, d :: ds ++ rest = c :: es → False := by
        rintro c hc es ⟨⟩
        exact hc rfl
      constructor
      · rw [readNumber]
        · rw [htake, List.drop_left, readFraction_of_ends hr]
          simp [readExponent_of_ends hr]
        · exact hno '-' hminus
        · exact hno '0' hzero
      · rw [List.cons_append, readNumber]
        · rw [htake, List.drop_left, readFraction_of_ends hr]
          simp [readExponent_of_ends hr]
        · exact hno '0' hzero

/-! ### Strings -/

theorem hexValue_digitChar : ∀ d < 16, hexValue (Nat.digitChar d) = some d := by
  decide

theorem readUnit_hexDigits {n : Nat} (hn : n < 0x10000) (rest : List Char) :
    readUnit (Text.hexDigits 4 n ++ rest) = some (n, rest) := by
  have hvalue : ∀ m, hexValue (Nat.digitChar (m % 16)) = some (m % 16) :=
    fun m => hexValue_digitChar _ (Nat.mod_lt m (by omega))
  simp [Text.hexDigits, readUnit, hvalue]
  omega

theorem readEscapedChar_hexDigits {c : Char} (hc : c.toNat < 0x20) (rest : List Char) :
    readEscapedChar (Text.hexDigits 4 c.toNat ++ rest) = some (c, rest) := by
  have hhigh : isHighUnit c.toNat = false := by simp [isHighUnit]; omega
  have hlow : isLowUnit c.toNat = false := by simp [isLowUnit]; omega
  simp [readEscapedChar, readUnit_hexDigits (show c.toNat < 0x10000 by omega), hhigh, unitChar,
    hlow, Char.ofNat_toNat]

theorem readChars_plain {c : Char} (hquote : c ≠ '"') (hback : c ≠ '\\') (hc : ¬ c.toNat < 0x20)
    (steps : Nat) (rest : List Char) :
    readChars (steps + 1) (c :: rest) = (readChars steps rest).map fun p => (c :: p.1, p.2) := by
  rw [readChars]
  · simp [hc, hback]
  · exact hquote
  · intro d ds hd
    exact absurd hd hback

theorem readChars_escapeChar (c : Char) (steps : Nat) (rest : List Char) :
    readChars (steps + 1) (escapeChar c ++ rest) =
      (readChars steps rest).map fun p => (c :: p.1, p.2) := by
  rw [escapeChar.eq_def]
  split
  all_goals try rfl
  split
  · next hc =>
    simp only [List.cons_append, List.nil_append]
    rw [readChars, readEscapedChar_hexDigits hc]
  · next hquote hback _ _ _ _ _ hc => exact readChars_plain hquote hback hc steps rest

theorem readChars_escaped (cs : List Char) (hs : cs.length < steps) (rest : List Char) :
    readChars steps (cs.flatMap escapeChar ++ '"' :: rest) = some (cs, rest) := by
  induction cs generalizing steps with
  | nil =>
    obtain ⟨n, rfl⟩ := Nat.exists_eq_add_of_lt hs
    rfl
  | cons c cs ih =>
    cases steps with
    | zero => simp at hs
    | succ steps =>
      rw [List.flatMap_cons, List.append_assoc, readChars_escapeChar,
        ih (by simpa using hs)]
      rfl

theorem escapeChar_ne_nil (c : Char) : escapeChar c ≠ [] := by
  rw [escapeChar.eq_def]
  split
  all_goals try exact List.cons_ne_nil _ _
  split <;> exact List.cons_ne_nil _ _

theorem length_le_escaped (cs : List Char) : cs.length ≤ (cs.flatMap escapeChar).length := by
  induction cs with
  | nil => simp
  | cons c cs ih =>
    have := List.length_pos_iff.2 (escapeChar_ne_nil c)
    simp only [List.flatMap_cons, List.length_append, List.length_cons]
    omega

/-- A text in quotes without the first quote. -/
theorem readString_stringText (s : String) (rest : List Char) :
    readString (s.toList.flatMap escapeChar ++ '"' :: rest) = some (s, rest) := by
  have := length_le_escaped s.toList
  have hsteps : s.toList.length < (s.toList.flatMap escapeChar ++ '"' :: rest).length + 1 := by
    rw [List.length_append]
    omega
  rw [readString, readChars_escaped s.toList hsteps rest]
  simp

/-! ### Values -/

mutual
/-- Without floating-point numbers. -/
def isExact : Json → Bool
  | .float _ => false
  | .arr js => areExact js
  | .obj ms => membersExact ms
  | .null | .bool _ | .int _ | .str _ => true

def areExact : List Json → Bool
  | [] => true
  | j :: js => isExact j && areExact js

def membersExact : List (String × Json) → Bool
  | [] => true
  | (_, v) :: ms => isExact v && membersExact ms
end

mutual
/-- Steps that are enough to read a value. -/
def cost : Json → Nat
  | .arr js => 1 + itemsCost js
  | .obj ms => 1 + membersCost ms
  | .null | .bool _ | .int _ | .float _ | .str _ => 1

def itemsCost : List Json → Nat
  | [] => 0
  | j :: js => 1 + cost j + itemsCost js

def membersCost : List (String × Json) → Nat
  | [] => 0
  | (_, v) :: ms => 1 + cost v + membersCost ms
end

/-- Space before a value is skipped. -/
theorem readValue_append (h : IsBlank cs) (steps : Nat) (rest : List Char) :
    readValue steps (cs ++ rest) = readValue steps rest := by
  cases steps with
  | zero => rfl
  | succ steps => rw [readValue, readValue, skipSpace_append h]

/-- A value begins with neither space nor a closing bracket. -/
def Begins (cs : List Char) : Prop := ∃ c ds, cs = c :: ds ∧ isSpace c = false ∧ c ≠ ']'

theorem Begins.append (h : Begins cs) (rest : List Char) : Begins (cs ++ rest) := by
  obtain ⟨c, ds, rfl, hc⟩ := h
  exact ⟨c, ds ++ rest, rfl, hc⟩

theorem toList_stringText (s : String) :
    (stringText s).toList = '"' :: (s.toList.flatMap escapeChar ++ ['"']) := by
  simp [stringText]

theorem toList_null : (renderAt indent level .null).toList = ['n', 'u', 'l', 'l'] := by
  simp [renderAt]

theorem toList_bool (b : Bool) : (renderAt indent level (.bool b)).toList =
    if b then ['t', 'r', 'u', 'e'] else ['f', 'a', 'l', 's', 'e'] := by
  cases b <;> simp [renderAt]

theorem toList_arr_nil : (renderAt indent level (.arr [])).toList = ['[', ']'] := by
  simp [renderAt]

theorem toList_arr_cons (j : Json) (js : List Json) :
    (renderAt indent level (.arr (j :: js))).toList =
      '[' :: ((lineStart indent (level + 1)).toList ++ ((renderAt indent (level + 1) j).toList ++
        ((renderItems indent (level + 1) js).toList ++
          ((lineStart indent level).toList ++ [']'])))) := by
  simp [renderAt]

theorem toList_obj_nil : (renderAt indent level (.obj [])).toList = ['\x7b', '\x7d'] := by
  simp [renderAt]

theorem toList_obj_cons (k : String) (v : Json) (ms : List (String × Json)) :
    (renderAt indent level (.obj ((k, v) :: ms))).toList =
      '\x7b' :: ((lineStart indent (level + 1)).toList ++ ((stringText k).toList ++
        (':' :: ' ' :: ((renderAt indent (level + 1) v).toList ++
          ((renderMembers indent (level + 1) ms).toList ++
            ((lineStart indent level).toList ++ ['\x7d'])))))) := by
  simp [renderAt]

theorem begins_of_isDigit {c : Char} (hc : c.isDigit = true) (cs : List Char) :
    Begins (c :: cs) := by
  have hno : ∀ d : Char, d.isDigit = false → c ≠ d := by
    rintro d hd rfl
    rw [hc] at hd
    cases hd
  refine ⟨c, cs, rfl, ?_, hno ']' (by decide)⟩
  simp [isSpace, hno ' ' (by decide), hno '\t' (by decide), hno '\n' (by decide),
    hno '\r' (by decide)]

theorem begins_intText (n : Int) : Begins (Number.intText n).toList := by
  rw [Number.intText]
  split
  · exact ⟨'-', n.natAbs.repr.toList, by simp, by decide, by decide⟩
  · rw [Nat.toList_repr]
    have hnum := isNumeral_toDigits n.natAbs
    cases hd : Nat.toDigits 10 n.natAbs with
    | nil => exact absurd hd hnum.nonempty
    | cons c ds => exact begins_of_isDigit (hnum.digits c (by simp [hd])) ds

theorem begins_renderAt {j : Json} (h : j.isExact = true) (indent : Option String) (level : Nat) :
    Begins (renderAt indent level j).toList := by
  cases j with
  | null => exact ⟨'n', _, toList_null, by decide, by decide⟩
  | bool b =>
    cases b with
    | true => exact ⟨'t', _, toList_bool true, by decide, by decide⟩
    | false => exact ⟨'f', _, toList_bool false, by decide, by decide⟩
  | int n => exact begins_intText n
  | float x => cases h
  | str s => exact ⟨'"', _, toList_stringText s, by decide, by decide⟩
  | arr js =>
    cases js with
    | nil => exact ⟨'[', _, toList_arr_nil, by decide, by decide⟩
    | cons j js => exact ⟨'[', _, toList_arr_cons j js, by decide, by decide⟩
  | obj ms =>
    cases ms with
    | nil => exact ⟨'\x7b', _, toList_obj_nil, by decide, by decide⟩
    | cons m ms => exact ⟨'\x7b', _, toList_obj_cons m.1 m.2 ms, by decide, by decide⟩

theorem readItems_last {j : Json} {ds : List Char} (hds : IsBlank ds)
    (h : readValue steps cs = some (j, ds ++ ']' :: rest)) :
    readItems (steps + 1) cs = some ([j], rest) := by
  have hskip : skipSpace (ds ++ ']' :: rest) = ']' :: rest := skipSpace_append_cons hds rfl rest
  simp [readItems, h, hskip]

theorem readItems_next {j : Json} {js : List Json} {ds : List Char}
    (h : readValue steps cs = some (j, ',' :: ds)) (hs : readItems steps ds = some (js, rest)) :
    readItems (steps + 1) cs = some (j :: js, rest) := by
  have hskip : skipSpace (',' :: ds) = ',' :: ds := skipSpace_cons rfl ds
  simp [readItems, h, hskip, hs]

theorem skipSpace_key {ds : List Char} (hds : IsBlank ds) (k : String) (cs : List Char) :
    skipSpace (ds ++ ((stringText k).toList ++ cs)) =
      '"' :: (k.toList.flatMap escapeChar ++ '"' :: cs) := by
  rw [toList_stringText, List.cons_append, skipSpace_append_cons hds rfl]
  simp

theorem readMembers_last {k : String} {v : Json} {ds es : List Char} (hds : IsBlank ds)
    (hes : IsBlank es) (h : readValue steps cs = some (v, es ++ '\x7d' :: rest)) :
    readMembers (steps + 1) (ds ++ ((stringText k).toList ++ ':' :: cs)) =
      some ([(k, v)], rest) := by
  have hcolon : skipSpace (':' :: cs) = ':' :: cs := skipSpace_cons rfl cs
  have hskip : skipSpace (es ++ '\x7d' :: rest) = '\x7d' :: rest :=
    skipSpace_append_cons hes rfl rest
  simp [readMembers, skipSpace_key hds, readString_stringText, hcolon, h, hskip]

theorem readMembers_next {k : String} {v : Json} {ms : List (String × Json)} {ds es : List Char}
    (hds : IsBlank ds) (h : readValue steps cs = some (v, ',' :: es))
    (hs : readMembers steps es = some (ms, rest)) :
    readMembers (steps + 1) (ds ++ ((stringText k).toList ++ ':' :: cs)) =
      some ((k, v) :: ms, rest) := by
  have hcolon : skipSpace (':' :: cs) = ':' :: cs := skipSpace_cons rfl cs
  have hskip : skipSpace (',' :: es) = ',' :: es := skipSpace_cons rfl es
  simp [readMembers, skipSpace_key hds, readString_stringText, hcolon, h, hskip, hs]

theorem readValue_numeral {ds : List Char} (hds : IsNumeral ds) (steps : Nat)
    (rest : List Char) :
    readValue (steps + 1) (ds ++ rest) = readNumber (ds ++ rest) ∧
      readValue (steps + 1) ('-' :: ds ++ rest) = readNumber ('-' :: ds ++ rest) := by
  cases ds with
  | nil => exact absurd rfl hds.nonempty
  | cons d ds =>
    have hno : ∀ c : Char, c.isDigit = false → d ≠ c := by
      rintro c hc rfl
      rw [hds.digits d (by simp)] at hc
      cases hc
    obtain ⟨c, cs, he, hspace, -⟩ := begins_of_isDigit (hds.digits d (by simp)) (ds ++ rest)
    cases he
    have hminus : skipSpace ('-' :: d :: (ds ++ rest)) = '-' :: d :: (ds ++ rest) :=
      skipSpace_cons rfl _
    constructor
    · simp [readValue, skipSpace_cons hspace, hno 'n' rfl, hno 't' rfl, hno 'f' rfl, hno 'N' rfl,
        hno 'I' rfl, hno '-' rfl, hno '"' rfl, hno '[' rfl, hno '\x7b' rfl]
    · simp [readValue, hminus, hno 'I' rfl]

theorem readValue_intText (n : Int) (hr : Ends rest) (steps : Nat) :
    readValue (steps + 1) ((Number.intText n).toList ++ rest) = some (.int n, rest) := by
  obtain ⟨hplus, hminus⟩ := readValue_numeral (isNumeral_toDigits n.natAbs) steps rest
  obtain ⟨hplus', hminus'⟩ := readNumber_numeral (isNumeral_toDigits n.natAbs) hr
  rw [natOf_toDigits] at hplus' hminus'
  rw [Number.intText]
  split
  · next hneg =>
    have hn : -(n.natAbs : Int) = n := by omega
    rw [String.toList_append, Nat.toList_repr]
    refine (hminus.trans hminus').trans ?_
    rw [hn]
  · next hneg =>
    have hn : (n.natAbs : Int) = n := by omega
    rw [Nat.toList_repr, hplus, hplus', hn]

theorem readValue_arr {js : List Json} {ds : List Char} (hds : IsBlank ds) (hcs : Begins cs)
    (h : readItems steps cs = some (js, rest)) :
    readValue (steps + 1) ('[' :: (ds ++ cs)) = some (.arr js, rest) := by
  obtain ⟨c, cs, rfl, hc, hno⟩ := hcs
  have hopen : skipSpace ('[' :: (ds ++ c :: cs)) = '[' :: (ds ++ c :: cs) :=
    skipSpace_cons rfl _
  simp [readValue, hopen, skipSpace_append_cons hds hc, hno, h]

theorem readValue_obj {k : String} {ms : List (String × Json)} {ds : List Char} (hds : IsBlank ds)
    (h : readMembers steps ([] ++ ((stringText k).toList ++ cs)) = some (ms, rest)) :
    readValue (steps + 1) ('\x7b' :: (ds ++ ((stringText k).toList ++ cs))) =
      some (.obj ms, rest) := by
  have hopen : ∀ es, skipSpace ('\x7b' :: es) = '\x7b' :: es := skipSpace_cons rfl
  have hkey := skipSpace_key hds k cs
  rw [List.nil_append, toList_stringText, List.cons_append, List.append_assoc,
    List.singleton_append] at h
  simp [readValue, hopen, hkey, h]

theorem ends_close {c : Char} (hc : c = ']' ∨ c = '\x7d') (h : IsBlank cs) (rest : List Char) :
    Ends (cs ++ c :: rest) := by
  refine (ends_cons ?_ rest).append h
  rcases hc with rfl | rfl <;> decide

theorem ends_comma (cs : List Char) : Ends (',' :: cs) := ends_cons (by decide) cs

/-! ### What is written can be read -/

/-- Values can be read in this number of steps. -/
def ReadsValues (indent : Option String) (steps : Nat) : Prop :=
  ∀ (j : Json) (level : Nat) (rest : List Char), j.isExact = true → j.cost ≤ steps → Ends rest →
    readValue steps ((renderAt indent level j).toList ++ rest) = some (j, rest)

/-- Items up to the closing bracket can be read in this number of steps. -/
def ReadsItems (indent : Option String) (steps : Nat) : Prop :=
  ∀ (j : Json) (js : List Json) (level : Nat) (before close rest : List Char),
    areExact (j :: js) = true → itemsCost (j :: js) ≤ steps → IsBlank before → IsBlank close →
      readItems steps (before ++ ((renderAt indent level j).toList ++
        ((renderItems indent level js).toList ++ (close ++ ']' :: rest)))) = some (j :: js, rest)

/-- Members up to the closing brace can be read in this number of steps. -/
def ReadsMembers (indent : Option String) (steps : Nat) : Prop :=
  ∀ (k : String) (v : Json) (ms : List (String × Json)) (level : Nat)
    (before close rest : List Char),
    membersExact ((k, v) :: ms) = true → membersCost ((k, v) :: ms) ≤ steps → IsBlank before →
      IsBlank close →
        readMembers steps (before ++ ((stringText k).toList ++
          (':' :: ' ' :: ((renderAt indent level v).toList ++
            ((renderMembers indent level ms).toList ++ (close ++ '\x7d' :: rest)))))) =
          some ((k, v) :: ms, rest)

theorem cost_pos (j : Json) : 0 < j.cost := by
  cases j <;> simp only [cost] <;> omega

theorem ReadsItems.succ (hi : IsIndent indent) (hv : ReadsValues indent steps)
    (hs : ReadsItems indent steps) : ReadsItems indent (steps + 1) := by
  intro j js level before close rest hexact hcost hbefore hclose
  obtain ⟨hj, hjs⟩ := Bool.and_eq_true_iff.1 hexact
  rw [itemsCost] at hcost
  cases js with
  | nil =>
    refine readItems_last hclose ?_
    rw [readValue_append hbefore]
    exact hv j level _ hj (by omega) (ends_close (Or.inl rfl) hclose rest)
  | cons k ks =>
    have hpos := cost_pos j
    have hrest := hs k ks level (gap indent level) close rest hjs (by omega)
      (isBlank_gap hi level) hclose
    refine readItems_next ?_ hrest
    rw [readValue_append hbefore, renderItems]
    simp only [String.toList_append, toList_separator, List.cons_append, List.append_assoc]
    exact hv j level _ hj (by omega) (ends_comma _)

theorem ReadsMembers.succ (hi : IsIndent indent) (hv : ReadsValues indent steps)
    (hs : ReadsMembers indent steps) : ReadsMembers indent (steps + 1) := by
  intro k v ms level before close rest hexact hcost hbefore hclose
  obtain ⟨hj, hms⟩ := Bool.and_eq_true_iff.1 hexact
  rw [membersCost] at hcost
  have hblank : IsBlank [' '] := by simp [IsBlank, isSpace]
  cases ms with
  | nil =>
    refine readMembers_last hbefore hclose ?_
    refine (readValue_append hblank steps _).trans ?_
    exact hv v level _ hj (by omega) (ends_close (Or.inr rfl) hclose rest)
  | cons m ms =>
    obtain ⟨l, w⟩ := m
    have hrest := hs l w ms level (gap indent level) close rest hms (by omega)
      (isBlank_gap hi level) hclose
    refine readMembers_next hbefore ?_ hrest
    refine (readValue_append hblank steps _).trans ?_
    rw [renderMembers]
    simp only [String.toList_append, toList_separator, List.cons_append, List.append_assoc]
    exact hv v level _ hj (by omega) (ends_comma _)

theorem ReadsValues.succ (hi : IsIndent indent) (hs : ReadsItems indent steps)
    (hm : ReadsMembers indent steps) : ReadsValues indent (steps + 1) := by
  intro j level rest hexact hcost hrest
  cases j with
  | null =>
    have hskip : ∀ cs, skipSpace ('n' :: cs) = 'n' :: cs := skipSpace_cons rfl
    simp [toList_null, readValue, hskip, skipWord]
  | bool b =>
    have hskip : ∀ cs, skipSpace ('t' :: cs) = 't' :: cs := skipSpace_cons rfl
    have hskip' : ∀ cs, skipSpace ('f' :: cs) = 'f' :: cs := skipSpace_cons rfl
    cases b <;> simp [toList_bool, readValue, hskip, hskip', skipWord]
  | int n => exact readValue_intText n hrest steps
  | float x => cases hexact
  | str s =>
    have hskip : ∀ cs, skipSpace ('"' :: cs) = '"' :: cs := skipSpace_cons rfl
    have hread := readString_stringText s rest
    simp [renderAt, toList_stringText, readValue, hskip, hread]
  | arr js =>
    cases js with
    | nil =>
      have hskip : ∀ cs, skipSpace ('[' :: cs) = '[' :: cs := skipSpace_cons rfl
      have hskip' : ∀ cs, skipSpace (']' :: cs) = ']' :: cs := skipSpace_cons rfl
      simp [toList_arr_nil, readValue, hskip, hskip']
    | cons j js =>
      obtain ⟨hj, -⟩ := Bool.and_eq_true_iff.1 hexact
      have hitems := hs j js (level + 1) [] (lineStart indent level).toList rest hexact
        (by rw [cost] at hcost; omega) (by simp [IsBlank]) (isBlank_lineStart hi level)
      rw [toList_arr_cons]
      simp only [List.cons_append, List.append_assoc, List.nil_append]
      exact readValue_arr (isBlank_lineStart hi (level + 1))
        ((begins_renderAt hj indent (level + 1)).append _) hitems
  | obj ms =>
    cases ms with
    | nil =>
      have hskip : ∀ cs, skipSpace ('\x7b' :: cs) = '\x7b' :: cs := skipSpace_cons rfl
      have hskip' : ∀ cs, skipSpace ('\x7d' :: cs) = '\x7d' :: cs := skipSpace_cons rfl
      simp [toList_obj_nil, readValue, hskip, hskip']
    | cons m ms =>
      obtain ⟨k, v⟩ := m
      have hmembers := hm k v ms (level + 1) [] (lineStart indent level).toList rest hexact
        (by rw [cost] at hcost; omega) (by simp [IsBlank]) (isBlank_lineStart hi level)
      rw [toList_obj_cons]
      simp only [List.cons_append, List.append_assoc, List.nil_append]
      exact readValue_obj (isBlank_lineStart hi (level + 1)) hmembers

/-- One step more reads one level more, and one item or member more. -/
theorem reads (hi : IsIndent indent) (steps : Nat) :
    ReadsValues indent steps ∧ ReadsItems indent steps ∧ ReadsMembers indent steps := by
  induction steps with
  | zero =>
    refine ⟨fun j level rest _ hcost => ?_, fun j js level before close rest _ hcost => ?_,
      fun k v ms level before close rest _ hcost => ?_⟩
    · have := cost_pos j
      omega
    · rw [itemsCost] at hcost
      omega
    · rw [membersCost] at hcost
      omega
  | succ steps ih =>
    obtain ⟨hv, hs, hm⟩ := ih
    exact ⟨.succ hi hs hm, .succ hi hv hs, .succ hi hv hm⟩

/-! ### Enough steps -/

theorem length_renderAt_pos {j : Json} (h : j.isExact = true) (indent : Option String)
    (level : Nat) : 0 < (renderAt indent level j).toList.length := by
  obtain ⟨c, cs, he, -⟩ := begins_renderAt h indent level
  simp [he]

mutual
theorem cost_le (indent : Option String) : ∀ (j : Json) (level : Nat), j.isExact = true →
    j.cost ≤ 2 * (renderAt indent level j).toList.length
  | .arr [], level, h | .obj [], level, h => by
    have := length_renderAt_pos h indent level
    simp only [cost, itemsCost, membersCost]
    omega
  | .arr (j :: js), level, h => by
    obtain ⟨hj, hjs⟩ := Bool.and_eq_true_iff.1 h
    have hcost := cost_le indent j (level + 1) hj
    have hrest := itemsCost_le indent js (level + 1) hjs
    simp only [cost, itemsCost, toList_arr_cons, List.length_cons, List.length_append]
    omega
  | .obj ((k, v) :: ms), level, h => by
    obtain ⟨hv, hms⟩ := Bool.and_eq_true_iff.1 h
    have hcost := cost_le indent v (level + 1) hv
    have hrest := membersCost_le indent ms (level + 1) hms
    simp only [cost, membersCost, toList_obj_cons, List.length_cons, List.length_append]
    omega
  | .null, level, h | .bool _, level, h | .int _, level, h | .float _, level, h
  | .str _, level, h => by
    have := length_renderAt_pos h indent level
    simp only [cost]
    omega

theorem itemsCost_le (indent : Option String) : ∀ (js : List Json) (level : Nat),
    areExact js = true → itemsCost js ≤ 2 * (renderItems indent level js).toList.length
  | [], _, _ => Nat.zero_le _
  | j :: js, level, h => by
    obtain ⟨hj, hjs⟩ := Bool.and_eq_true_iff.1 h
    have hcost := cost_le indent j level hj
    have hrest := itemsCost_le indent js level hjs
    simp only [itemsCost, renderItems, String.toList_append, toList_separator, List.length_append,
      List.length_cons]
    omega

theorem membersCost_le (indent : Option String) : ∀ (ms : List (String × Json)) (level : Nat),
    membersExact ms = true → membersCost ms ≤ 2 * (renderMembers indent level ms).toList.length
  | [], _, _ => Nat.zero_le _
  | (k, v) :: ms, level, h => by
    obtain ⟨hv, hms⟩ := Bool.and_eq_true_iff.1 h
    have hcost := cost_le indent v level hv
    have hrest := membersCost_le indent ms level hms
    simp only [membersCost, renderMembers, String.toList_append, toList_separator,
      List.length_append, List.length_cons]
    omega
end

/-- A value without floating-point numbers is read back as it was. -/
theorem read?_render (hi : IsIndent indent) {j : Json} (h : j.isExact = true) :
    read? (j.render indent) = some j := by
  have hcost := cost_le indent j 0 h
  have hread := (reads hi (2 * (renderAt indent 0 j).toList.length + 2)).1 j 0 [] h (by omega)
    ends_nil
  rw [List.append_nil] at hread
  rw [read?, render, hread]
  rfl

end Elenchus.Json

import Elenchus.Json.Reader
import Elenchus.Text.Basic

/-!
Numbers as people type them: with a sign, with blanks around them, and with the digits of any
script.
-/

namespace Elenchus.Number

/-- A character as it counts in a number: blanks beyond ASCII as a blank, and digits as those of
ASCII. -/
def plainChar (c : Char) : Char :=
  if c.toNat < 0x7f then c
  else if Text.isBlank c then ' '
  else
    match Text.digitValue? c with
    | some d => Nat.digitChar d
    | none => '?'

/-- The blanks of ASCII. -/
def isTypedBlank (c : Char) : Bool := c == ' ' || (0x9 ≤ c.toNat && c.toNat ≤ 0xd)

/-- The characters that make up a number, without the blanks around them. -/
def typed (cs : List Char) : List Char :=
  (((cs.map plainChar).dropWhile isTypedBlank).reverse.dropWhile isTypedBlank).reverse

/-- The sign, and what follows it. -/
def splitSign : List Char → Bool × List Char
  | '-' :: cs => (true, cs)
  | '+' :: cs => (false, cs)
  | cs => (false, cs)

def withSign (negative : Bool) (n : Nat) : Int := if negative then -(n : Int) else n

/-- The mark that may stand before the digits to a base. -/
def baseMark? : (base : Nat) → Option Char
  | 2 => some 'b'
  | 8 => some 'o'
  | 16 => some 'x'
  | _ => none

/-- Leaves out a zero and the mark of a base after it. -/
def dropMark (base : Nat) : List Char → List Char
  | '0' :: c :: cs => if baseMark? base == some c.toLower then cs else '0' :: c :: cs
  | cs => cs

/-- A number from its digits alone. -/
def digits? (base : Nat) (cs : List Char) : Option Nat :=
  if cs.isEmpty then none
  else
    cs.foldlM (fun n c =>
      match Json.hexValue c with
      | some d => if d < base then some (n * base + d) else none
      | none => none) 0

/-- Decimal integers may not have more digits than this. -/
def mostDigits : Nat := 4300

/-- An integer to the base 2, 8, 10 or 16. -/
def integer? (base : Nat) (cs : List Char) : Option Int :=
  let (negative, rest) := splitSign (typed cs)
  let ds := dropMark base rest
  if base = 10 ∧ mostDigits < ds.length then none
  else (digits? base ds).map (withSign negative)

/-- The number behind the mark of an exponent; no mark, no exponent. -/
def exponent? : List Char → Option Int
  | [] => some 0
  | e :: cs =>
    if e == 'e' || e == 'E' then
      let (negative, rest) := splitSign cs
      if rest.all Char.isDigit then (digits? 10 rest).map (withSign negative) else none
    else none

/-- Digits with a point and an exponent, as far as they are there, or a word for what has no
digits. -/
def unsigned? (cs : List Char) : Option Floating :=
  let word := String.ofList (cs.map Char.toLower)
  if word == "inf" || word == "infinity" then some (.infinite false)
  else if word == "nan" then some .undefined
  else
    let whole := cs.takeWhile Char.isDigit
    let rest := cs.dropWhile Char.isDigit
    let (fraction, rest) := match rest with
      | '.' :: rest => (rest.takeWhile Char.isDigit, rest.dropWhile Char.isDigit)
      | rest => ([], rest)
    match digits? 10 (whole ++ fraction), exponent? rest with
    | some n, some e => some (.ofDecimal ⟨false, n, e - fraction.length⟩)
    | _, _ => none

/-- A floating-point number. -/
def floating? (cs : List Char) : Option Floating :=
  let (negative, rest) := splitSign (typed cs)
  (unsigned? rest).map fun x => if negative then x.negate else x

end Elenchus.Number

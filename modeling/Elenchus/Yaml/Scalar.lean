import Elenchus.Item.Moment
import Elenchus.Number.Reading
import Elenchus.Yaml.Cursor

/-!
Words with a meaning: nothing, yes and no, numbers, days, and octets. The kind of a word is told
by its shape alone.
-/

namespace Elenchus.Yaml

/-- Kinds of values. -/
inductive Tag where
  | null
  | bool
  | int
  | float
  | moment
  | bytes
  | str
  | seq
  | map
  | set
  | pairs
  | merge
  | value
  | other
  deriving DecidableEq

/-- Kinds of values that are made of others. -/
def Tag.isCollection : Tag → Bool
  | .seq | .map | .set | .pairs => true
  | _ => false

namespace Scalar

def nullWords : List String := ["", "~", "null", "Null", "NULL"]

def trueWords : List String := ["true", "True", "TRUE", "yes", "Yes", "YES", "on", "On", "ON"]

def falseWords : List String := ["false", "False", "FALSE", "no", "No", "NO", "off", "Off", "OFF"]

def infinityWords : List String := [".inf", ".Inf", ".INF"]

def undefinedWords : List String := [".nan", ".NaN", ".NAN"]

/-- Digits to a base, and the underscores among them. -/
def isDigitBelow (base : Nat) (c : Char) : Bool :=
  c == '_' || match Json.hexValue c with
    | some d => decide (d < base)
    | none => false

/-- A digit of some range and then digits or underscores. -/
def startsWith (first : Char → Bool) (cs : List Char) : Bool :=
  match cs with
  | c :: cs => first c && cs.all (isDigitBelow 10)
  | [] => false

/-- Splits at every colon. -/
def splitColons : List Char → List (List Char)
  | [] => [[]]
  | c :: cs =>
    match splitColons cs with
    | [] => [[c]]
    | part :: parts => if c == ':' then [] :: part :: parts else (c :: part) :: parts

/-- One digit, or two of which the first is below six. -/
def isSixtieth : List Char → Bool
  | [c] => c.isDigit
  | [c, d] => '0' ≤ c && c ≤ '5' && d.isDigit
  | _ => false

/-- The shape of an integer without its sign: binary after `0b`, hexadecimal after `0x`, octal
after a zero, otherwise decimal, or to the base 60 with colons. -/
def isNatural : List Char → Bool
  | '0' :: 'b' :: cs => !cs.isEmpty && cs.all (isDigitBelow 2)
  | '0' :: 'x' :: cs => !cs.isEmpty && cs.all (isDigitBelow 16)
  | '0' :: cs => cs.all (isDigitBelow 8)
  | cs =>
    match splitColons cs with
    | [] => false
    | first :: parts => startsWith (fun c => c.isDigit && c != '0') first && parts.all isSixtieth

/-- An exponent has a sign. -/
def isExponent : List Char → Bool
  | [] => true
  | e :: sign :: cs =>
    (e == 'e' || e == 'E') && (sign == '-' || sign == '+') && !cs.isEmpty && cs.all Char.isDigit
  | _ => false

/-- The shape of a number with a point. Only one with digits before the point has a sign, and only
one without colons has an exponent. -/
def isDecimal (cs : List Char) : Bool :=
  let (_, rest) := Number.splitSign cs
  let whole := rest.takeWhile (· != '.')
  match rest.dropWhile (· != '.') with
  | '.' :: tail =>
    let fraction := tail.takeWhile (isDigitBelow 10)
    let after := tail.dropWhile (isDigitBelow 10)
    match splitColons whole with
    | [[]] => rest.length == cs.length && startsWith Char.isDigit fraction && isExponent after
    | [_] => startsWith Char.isDigit whole && isExponent after
    | first :: parts => startsWith Char.isDigit first && parts.all isSixtieth && after.isEmpty
    | [] => false
  | _ => false

/-! ### Days -/

/-- So many digits at least and at most, and what follows them. -/
def digitsOf (least most : Nat) (cs : List Char) : Option (Nat × List Char) :=
  let ds := (cs.take most).takeWhile Char.isDigit
  if least ≤ ds.length then some (Json.natOf ds, cs.drop ds.length) else none

/-- Takes a character off the front. -/
def skipChar (c : Char) : List Char → Option (List Char)
  | d :: cs => if c = d then some cs else none
  | [] => none

def isTab (c : Char) : Bool := c == ' ' || c == '\t'

/-- The first six digits behind a point count. -/
def fractionOf : List Char → Nat × List Char
  | '.' :: cs =>
    let ds := (cs.takeWhile Char.isDigit).take 6
    (Json.natOf ds * Nat.pow 10 (6 - ds.length), cs.dropWhile Char.isDigit)
  | cs => (0, cs)

/-- The minutes ahead of universal time, up to the end. -/
def zoneOf (cs : List Char) : Option (Option Int) :=
  if cs.isEmpty then some none
  else
    match cs.dropWhile isTab with
    | ['Z'] => some (some 0)
    | sign :: rest => do
      if sign != '-' && sign != '+' then failure
      let (hours, rest) ← digitsOf 1 2 rest
      let minutes ←
        if rest.isEmpty then some 0
        else do
          let (minutes, rest) ← digitsOf 2 2 (← skipChar ':' rest)
          if rest.isEmpty then some minutes else none
      some (some (Number.withSign (sign == '-') (hours * 60 + minutes)))
    | [] => none

/-- A time of day behind a day. -/
def clockOf (cs : List Char) : Option Clock := do
  let cs ← match cs with
    | c :: rest =>
      if c == 'T' || c == 't' then some rest
      else if isTab c then some (rest.dropWhile isTab)
      else none
    | [] => none
  let (hour, cs) ← digitsOf 1 2 cs
  let (minute, cs) ← digitsOf 2 2 (← skipChar ':' cs)
  let (second, cs) ← digitsOf 2 2 (← skipChar ':' cs)
  let (micro, cs) := fractionOf cs
  some { hour, minute, second, micro, ahead := ← zoneOf cs }

/-- A day, or a time on it, as it is written. -/
def dayOf (cs : List Char) : Option Moment := do
  let (year, cs) ← digitsOf 4 4 cs
  let (month, cs) ← digitsOf 1 2 (← skipChar '-' cs)
  let (day, cs) ← digitsOf 1 2 (← skipChar '-' cs)
  let clock ← if cs.isEmpty then some none else some <$> clockOf cs
  some { year, month, day, clock }

/-- The shape of a day. Without a time the month and the day have two digits. -/
def isDay (cs : List Char) : Bool :=
  match dayOf cs with
  | some m => m.clock.isSome || cs.length == 10
  | none => false

/-! ### Kinds -/

/-- A line break at the end of a word does not count. -/
def withoutBreak (cs : List Char) : List Char :=
  match cs.reverse with
  | '\n' :: rest => rest.reverse
  | _ => cs

/-- The kind of a plain word that is not empty. -/
def wordTag (cs : List Char) : Tag :=
  let word := String.ofList cs
  let unsigned := (Number.splitSign cs).2
  if nullWords.contains word then .null
  else if trueWords.contains word || falseWords.contains word then .bool
  else if isDecimal cs || undefinedWords.contains word ||
      infinityWords.contains (String.ofList unsigned) then .float
  else if isNatural unsigned then .int
  else if isDay cs then .moment
  else if word == "<<" then .merge
  else if word == "=" then .value
  else if ["!", "&", "*"].contains word then .other
  else .str

/-- The kind of a plain word. -/
def tagOf (text : String) : Tag :=
  if text.isEmpty then .null
  else
    match withoutBreak text.toList with
    | [] => .str
    | cs => wordTag cs

/-! ### Values -/

def demand {α : Type} (e : Error) : Option α → Except Error α
  | some a => .ok a
  | none => .error e

/-- The sum of parts to the base 60, the last one first. -/
def sixtieths (base : Nat) (sum : Int) : List Int → Int
  | [] => sum
  | part :: parts => sixtieths (base * 60) (sum + part * base) parts

/-- The value of an integer without its first sign and underscores. -/
def naturalOf : List Char → Except Error Int
  | [] => .error .nothing
  | ['0'] => .ok 0
  | '0' :: 'b' :: cs => demand .digits (Number.integer? 2 cs)
  | '0' :: 'x' :: cs => demand .digits (Number.integer? 16 cs)
  | '0' :: cs => demand .digits (Number.integer? 8 ('0' :: cs))
  | cs => do
    let parts ← (splitColons cs).mapM fun part => demand .digits (Number.integer? 10 part)
    .ok (sixtieths 1 0 parts.reverse)

/-- The value of an integer. -/
def integerOf (text : String) : Except Error Int := do
  let (negative, rest) := Number.splitSign (text.toList.filter (· != '_'))
  let n ← naturalOf rest
  return if negative then -n else n

/-- The sum of parts to the base 60, the last one first. No number is as large as the weight of a
part far to the left. -/
def decimalSixtieths (base : Nat) (sum : Floating) : List Floating → Except Error Floating
  | [] => .ok sum
  | part :: parts =>
    match Floating.ofInt base with
    | .infinite _ => .error .bounds
    | weight => decimalSixtieths (base * 60) (sum.add (part.mul weight)) parts

/-- The value of a number with a point. -/
def decimalOf (text : String) : Except Error Floating := do
  let cs := (text.toList.filter (· != '_')).map Char.toLower
  if cs.isEmpty then .error .nothing
  let (negative, rest) := Number.splitSign cs
  let x ←
    if rest == ".inf".toList then pure (Floating.infinite false)
    else if rest == ".nan".toList then pure .undefined
    else do
      let parts ← (splitColons rest).mapM fun part => demand .digits (Number.floating? part)
      match parts with
      | [x] => pure x
      | parts => decimalSixtieths 1 (.finite false 0 0) parts.reverse
  return if negative then x.negate else x

/-- The value of a day. -/
def momentOf (text : String) : Except Error Moment := do
  let m ← demand .noDay (dayOf (withoutBreak text.toList))
  if m.isValid then return m else .error .digits

/-- What a character stands for when six bits are written at a time. -/
def sixBits? (c : Char) : Option Nat :=
  if c.isUpper then some (c.toNat - 'A'.toNat)
  else if c.isLower then some (c.toNat - 'a'.toNat + 26)
  else if c.isDigit then some (c.toNat - '0'.toNat + 52)
  else if c == '+' then some 62
  else if c == '/' then some 63
  else none

/-- Octets from six bits at a time. Groups are four characters long, and equals signs may fill up
the last one; `bits` has so many characters of a group, and then there were `fill` such signs.
Other characters do not count. -/
def octetsOf (length bits fill : Nat) : List Char → Except Error (List Nat)
  | [] => if length = 0 then .ok [] else .error .kind
  | c :: cs =>
    if c == '=' then
      if 2 ≤ length ∧ 4 ≤ length + fill + 1 then .ok []
      else octetsOf length bits (if 2 ≤ length then fill + 1 else fill) cs
    else
      match sixBits? c with
      | none => octetsOf length bits fill cs
      | some v =>
        match length with
        | 0 => octetsOf 1 v 0 cs
        | 1 => do return (bits * 4 + v / 16) :: (← octetsOf 2 (v % 16) 0 cs)
        | 2 => do return (bits * 16 + v / 4) :: (← octetsOf 3 (v % 4) 0 cs)
        | _ => do return (bits * 64 + v) :: (← octetsOf 0 0 0 cs)

/-- The value of octets that are written as a text. -/
def bytesOf (text : String) : Except Error (List Nat) :=
  if text.toList.all fun c => c.toNat < 0x80 then octetsOf 0 0 0 text.toList else .error .kind

/-- Yes or no, in capitals or not. -/
def truthOf (text : String) : Except Error Bool :=
  let word := String.ofList (text.toList.map Char.toLower)
  if trueWords.contains word then .ok true
  else if falseWords.contains word then .ok false
  else .error .word

end Scalar

end Elenchus.Yaml

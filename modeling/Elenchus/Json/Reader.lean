import Elenchus.Json.Basic

/-! Reading JSON text. Each function gives what it read and what is left. -/

namespace Elenchus.Json

def isSpace (c : Char) : Bool := c == ' ' || c == '\t' || c == '\n' || c == '\r'

def skipSpace (cs : List Char) : List Char := cs.dropWhile isSpace

/-- Takes a word off the front. -/
def skipWord : (word : List Char) → List Char → Option (List Char)
  | [], cs => some cs
  | w :: ws, c :: cs => if w = c then skipWord ws cs else none
  | _ :: _, [] => none

def hexValue (c : Char) : Option Nat :=
  if c.isDigit then some (c.toNat - '0'.toNat)
  else if 'a' ≤ c && c ≤ 'f' then some (c.toNat - 'a'.toNat + 10)
  else if 'A' ≤ c && c ≤ 'F' then some (c.toNat - 'A'.toNat + 10)
  else none

/-- Four hexadecimal digits. -/
def readUnit : List Char → Option (Nat × List Char)
  | a :: b :: c :: d :: cs => do
    let a ← hexValue a
    let b ← hexValue b
    let c ← hexValue c
    let d ← hexValue d
    some (((a * 16 + b) * 16 + c) * 16 + d, cs)
  | _ => none

def isHighUnit (n : Nat) : Bool := 0xd800 ≤ n && n < 0xdc00
def isLowUnit (n : Nat) : Bool := 0xdc00 ≤ n && n < 0xe000

/-- The character of a pair of units. -/
def pairChar (high low : Nat) : Char :=
  Char.ofNat (0x10000 + (high - 0xd800) * 0x400 + (low - 0xdc00))

/-- The character of a unit. Half of a pair is no character, and a mark stands in its place. -/
def unitChar (n : Nat) : Char :=
  if isHighUnit n || isLowUnit n then '\ufffd' else Char.ofNat n

/-- The character of an escape after `\u`, which may take two units. -/
def readEscapedChar (cs : List Char) : Option (Char × List Char) :=
  match readUnit cs with
  | none => none
  | some (n, rest) =>
    if isHighUnit n then
      match rest with
      | '\\' :: 'u' :: more =>
        match readUnit more with
        | some (m, rest') =>
          if isLowUnit m then some (pairChar n m, rest') else some (unitChar n, rest)
        | none => some (unitChar n, rest)
      | _ => some (unitChar n, rest)
    else some (unitChar n, rest)

/-- The characters up to the closing quote, with at most `steps` of them. -/
def readChars : (steps : Nat) → List Char → Option (List Char × List Char)
  | 0, _ => none
  | _ + 1, [] => none
  | _ + 1, '"' :: cs => some ([], cs)
  | steps + 1, '\\' :: c :: cs =>
    let go (d : Char) (rest : List Char) := (readChars steps rest).map fun (ds, r) => (d :: ds, r)
    match c with
    | '"' => go '"' cs
    | '\\' => go '\\' cs
    | '/' => go '/' cs
    | 'n' => go '\n' cs
    | 'r' => go '\r' cs
    | 't' => go '\t' cs
    | 'b' => go '\x08' cs
    | 'f' => go '\x0c' cs
    | 'u' =>
      match readEscapedChar cs with
      | some (d, rest) => go d rest
      | none => none
    | _ => none
  | steps + 1, c :: cs =>
    if c.toNat < 0x20 || c == '\\' then none
    else (readChars steps cs).map fun (ds, r) => (c :: ds, r)

/-- A string after its opening quote. -/
def readString (cs : List Char) : Option (String × List Char) :=
  (readChars (cs.length + 1) cs).map fun (ds, r) => (String.ofList ds, r)

def natOf (ds : List Char) : Nat := ds.foldl (fun n d => n * 10 + (d.toNat - '0'.toNat)) 0

/-- The fraction after a point, if there is one. -/
def readFraction : List Char → List Char × List Char
  | '.' :: cs =>
    match cs.takeWhile Char.isDigit with
    | [] => ([], '.' :: cs)
    | ds => (ds, cs.dropWhile Char.isDigit)
  | cs => ([], cs)

def readExponent (cs : List Char) : Option Int × List Char :=
  match cs with
  | e :: rest =>
    if e == 'e' || e == 'E' then
      let (neg, digits) :=
        match rest with
        | '-' :: r => (true, r)
        | '+' :: r => (false, r)
        | r => (false, r)
      match digits.takeWhile Char.isDigit with
      | [] => (none, cs)
      | ds =>
        let n : Int := natOf ds
        (some (if neg then -n else n), digits.dropWhile Char.isDigit)
    else (none, cs)
  | [] => (none, [])

def readNumber (cs : List Char) : Option (Json × List Char) :=
  let (neg, cs) :=
    match cs with
    | '-' :: r => (true, r)
    | r => (false, r)
  let ds := match cs with
    | '0' :: _ => ['0']
    | _ => cs.takeWhile Char.isDigit
  if ds.isEmpty then none
  else
    let (fraction, cs) := readFraction (cs.drop ds.length)
    let (exponent, cs) := readExponent cs
    if fraction.isEmpty && exponent.isNone then
      let n : Int := natOf ds
      some (.int (if neg then -n else n), cs)
    else
      some (.float (.ofDecimal
        ⟨neg, natOf (ds ++ fraction), exponent.getD 0 - fraction.length⟩), cs)

/-- The rest of the word for an infinite number. -/
def readInfinity (negative : Bool) (cs : List Char) : Option (Json × List Char) :=
  (skipWord "nfinity".toList cs).map fun r => (.float (.infinite negative), r)

mutual
/-- Reads one value; `steps` bounds the nesting and the number of items. -/
def readValue : (steps : Nat) → List Char → Option (Json × List Char)
  | 0, _ => none
  | steps + 1, cs =>
    match skipSpace cs with
    | 'n' :: rest => (skipWord ['u', 'l', 'l'] rest).map fun r => (.null, r)
    | 't' :: rest => (skipWord ['r', 'u', 'e'] rest).map fun r => (.bool true, r)
    | 'f' :: rest => (skipWord ['a', 'l', 's', 'e'] rest).map fun r => (.bool false, r)
    | 'N' :: rest => (skipWord ['a', 'N'] rest).map fun r => (.float .undefined, r)
    | 'I' :: rest => readInfinity false rest
    | '-' :: 'I' :: rest => readInfinity true rest
    | '"' :: rest => (readString rest).map fun (s, r) => (.str s, r)
    | '[' :: rest =>
      match skipSpace rest with
      | ']' :: r => some (.arr [], r)
      | r => (readItems steps r).map fun (js, r) => (.arr js, r)
    | '\x7b' :: rest =>
      match skipSpace rest with
      | '\x7d' :: r => some (.obj [], r)
      | r => (readMembers steps r).map fun (ms, r) => (.obj ms, r)
    | r => readNumber r

/-- Items up to the closing bracket. -/
def readItems : (steps : Nat) → List Char → Option (List Json × List Char)
  | 0, _ => none
  | steps + 1, cs =>
    match readValue steps cs with
    | none => none
    | some (j, rest) =>
      match skipSpace rest with
      | ',' :: r => (readItems steps r).map fun (js, r) => (j :: js, r)
      | ']' :: r => some ([j], r)
      | _ => none

/-- Members up to the closing brace. -/
def readMembers : (steps : Nat) → List Char → Option (List (String × Json) × List Char)
  | 0, _ => none
  | steps + 1, cs =>
    match skipSpace cs with
    | '"' :: rest =>
      match readString rest with
      | none => none
      | some (k, rest) =>
        match skipSpace rest with
        | ':' :: rest =>
          match readValue steps rest with
          | none => none
          | some (v, rest) =>
            match skipSpace rest with
            | ',' :: r => (readMembers steps r).map fun (ms, r) => ((k, v) :: ms, r)
            | '\x7d' :: r => some ([(k, v)], r)
            | _ => none
        | _ => none
    | _ => none
end

/-- Reads a text that holds one value and nothing else but space. -/
def read? (text : String) : Option Json :=
  let cs := text.toList
  match readValue (2 * cs.length + 2) cs with
  | some (j, rest) => if (skipSpace rest).isEmpty then some j else none
  | none => none

end Elenchus.Json

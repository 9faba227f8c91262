import Elenchus.Number.Decimal

/-!
Floating-point numbers with 53 significant bits. Every operation is exact and then rounded to the
nearest number, a tie to the even one. In writing a number has the fewest digits that read back.
-/

namespace Elenchus

/-- A number `± mantissa · 2 ^ exponent`, of which the mantissa is odd or the number is zero; an
infinity; or the outcome of an operation that has none. -/
inductive Floating where
  | finite (negative : Bool) (mantissa : Nat) (exponent : Int)
  | infinite (negative : Bool)
  | undefined
  deriving DecidableEq, Inhabited

/-- A quotient to the nearest integer, a tie to the even one. -/
def roundQuotient (num den : Nat) : Nat :=
  let q := num / den
  let r := num % den
  if 2 * r < den ∨ 2 * r = den ∧ q % 2 = 0 then q else q + 1

/-- The fraction `num / den · base ^ (-e)`. -/
def scaleDown (base num den : Nat) (e : Int) : Nat × Nat :=
  if 0 ≤ e then (num, den * Nat.pow base e.toNat) else (num * Nat.pow base (-e).toNat, den)

/-- `num / den` is at least `base ^ e`. -/
def reachesPower (base num den : Nat) (e : Int) : Bool :=
  let (a, b) := scaleDown base num den e
  decide (b ≤ a)

namespace Floating

def precision : Nat := 53

/-- The exponent of the smallest positive number. -/
def leastExponent : Int := -1074

/-- All numbers are below two to this power. -/
def exponentLimit : Int := 1024

/-- Moves factors of two into the exponent, at most `steps` of them. -/
def halveWithin : (steps : Nat) → Nat → Int → Nat × Int
  | 0, m, e => (m, e)
  | steps + 1, m, e => if m % 2 = 0 then halveWithin steps (m / 2) (e + 1) else (m, e)

/-- A number of the form `± m · 2 ^ e`. -/
def lowest (negative : Bool) (m : Nat) (e : Int) : Floating :=
  if m = 0 then .finite negative 0 0
  else
    let (m, e) := halveWithin (m.log2 + 1) m e
    .finite negative m e

/-- The number next to a fraction. -/
def ofFraction (negative : Bool) (num den : Nat) : Floating :=
  if num = 0 then .finite negative 0 0
  else
    let guess : Int := (num.log2 : Int) - den.log2
    let lead := if reachesPower 2 num den guess then guess else guess - 1
    let e := max (lead - precision + 1) leastExponent
    let (a, b) := scaleDown 2 num den e
    let m := roundQuotient a b
    if exponentLimit < (m.log2 : Int) + 1 + e then .infinite negative else lowest negative m e

/-- Decimals with their first digit this far from the point are beyond all numbers. -/
def farOff : Int := 400

/-- The number next to a decimal. -/
def ofDecimal (d : Decimal) : Floating :=
  let lead : Int := d.digits.repr.length + d.exponent
  if d.digits = 0 ∨ lead < -farOff then .finite d.negative 0 0
  else if farOff < lead then .infinite d.negative
  else
    let (a, b) := scaleDown 10 d.digits 1 (-d.exponent)
    ofFraction d.negative a b

def ofInt (n : Int) : Floating := ofFraction (decide (n < 0)) n.natAbs 1

def isZero : Floating → Bool
  | .finite _ m _ => m == 0
  | _ => false

def negate : Floating → Floating
  | .finite s m e => .finite (!s) m e
  | .infinite s => .infinite (!s)
  | .undefined => .undefined

/-- The number next to `n · 2 ^ e`; `negative` is the sign of a zero. -/
def ofScaled (negative : Bool) (n e : Int) : Floating :=
  let (a, b) := scaleDown 2 n.natAbs 1 (-e)
  ofFraction (if n = 0 then negative else decide (n < 0)) a b

def signed (negative : Bool) (m : Nat) : Int := if negative then -(m : Int) else m

def add : Floating → Floating → Floating
  | .finite s m e, .finite t n f =>
    let low := min e f
    ofScaled (s && t)
      (signed s m * Int.pow 2 (e - low).toNat + signed t n * Int.pow 2 (f - low).toNat) low
  | .undefined, _ | _, .undefined => .undefined
  | .infinite s, .infinite t => if s = t then .infinite s else .undefined
  | .infinite s, _ | _, .infinite s => .infinite s

def mul : Floating → Floating → Floating
  | .finite s m e, .finite t n f => ofScaled (s != t) (signed s m * signed t n) (e + f)
  | .undefined, _ | _, .undefined => .undefined
  | .infinite s, .finite t m _ | .finite t m _, .infinite s =>
    if m = 0 then .undefined else .infinite (s != t)
  | .infinite s, .infinite t => .infinite (s != t)

/-- The decimal with the fewest digits that reads back as the positive number `x`, which is
`num / den` with its first digit at `lead`. Of two such decimals it is the nearer one. -/
def shortestFrom (x : Floating) (num den : Nat) (lead : Int) :
    (tries : Nat) → (width : Nat) → Decimal
  | tries, width =>
    let e := lead - width + 1
    let (a, b) := scaleDown 10 num den e
    let below : Decimal := ⟨false, a / b, e⟩
    let above : Decimal := ⟨false, a / b + 1, e⟩
    let nearer := if roundQuotient a b = a / b then below else above
    match ofDecimal below == x, ofDecimal above == x, tries with
    | true, true, _ => nearer
    | true, false, _ => below
    | false, true, _ => above
    | false, false, 0 => nearer
    | false, false, tries + 1 => shortestFrom x num den lead tries (width + 1)

/-- The decimal with the fewest digits that reads back as a positive number. -/
def shortest (mantissa : Nat) (exponent : Int) : Decimal :=
  let (num, den) := scaleDown 2 mantissa 1 (-exponent)
  let guess := ((mantissa.log2 : Int) + exponent) * 30103 / 100000
  let lead := if reachesPower 10 num den (guess + 1) then guess + 1 else guess
  shortestFrom (.finite false mantissa exponent) num den lead precision 1

/-- With a point, and the way decimals are written. -/
def text : Floating → String
  | .finite s 0 _ => Decimal.text ⟨s, 0, 0⟩
  | .finite s m e => Decimal.text { shortest m e with negative := s }
  | .infinite s => if s then "-inf" else "inf"
  | .undefined => "nan"

end Floating

end Elenchus

import Elenchus.Number.Floating

/-! Integers and floating-point numbers together. They are compared by their exact values. -/

namespace Elenchus

inductive Number where
  | int (n : Int)
  | float (x : Floating)
  deriving DecidableEq, Inhabited

namespace Number

/-- A finite number as `m · 2 ^ e`. -/
def scaled? : Number → Option (Int × Int)
  | .int n => some (n, 0)
  | .float (.finite s m e) => some (Floating.signed s m, e)
  | .float _ => none

/-- How two numbers are ordered; nothing is said if one of them is undefined. -/
def compare? (a b : Number) : Option Ordering :=
  match a.scaled?, b.scaled?, a, b with
  | some (m, e), some (n, f), _, _ =>
    let low := min e f
    some (compare (m * Int.pow 2 (e - low).toNat) (n * Int.pow 2 (f - low).toNat))
  | _, _, .float .undefined, _ => none
  | _, _, _, .float .undefined => none
  | _, _, .float (.infinite s), .float (.infinite t) =>
    some (if s = t then .eq else if s then .lt else .gt)
  | _, _, .float (.infinite s), _ => some (if s then .lt else .gt)
  | _, _, _, .float (.infinite s) => some (if s then .gt else .lt)
  | _, _, _, _ => none

def eq (a b : Number) : Bool := a.compare? b == some .eq

def lt (a b : Number) : Bool := a.compare? b == some .lt

def le (a b : Number) : Bool := a.lt b || a.eq b

def add : Number → Number → Number
  | .int m, .int n => .int (m + n)
  | .int m, .float y => .float ((Floating.ofInt m).add y)
  | .float x, .int n => .float (x.add (Floating.ofInt n))
  | .float x, .float y => .float (x.add y)

/-- The least integer that is not below a finite number. -/
def ceil? (a : Number) : Option Int :=
  a.scaled?.map fun (m, e) =>
    if 0 ≤ e then m * Int.pow 2 e.toNat else -((-m) / Int.pow 2 (-e).toNat)

/-- The greatest integer that is not above a finite number. -/
def floor? (a : Number) : Option Int :=
  a.scaled?.map fun (m, e) => if 0 ≤ e then m * Int.pow 2 e.toNat else m / Int.pow 2 (-e).toNat

/-- The integer that a number is, if it is one. -/
def whole? (a : Number) : Option Int := if a.ceil? = a.floor? then a.ceil? else none

/-- Integers in decimal notation. -/
def intText (n : Int) : String := if n < 0 then "-" ++ n.natAbs.repr else n.natAbs.repr

def text : Number → String
  | .int n => intText n
  | .float x => x.text

end Number

end Elenchus

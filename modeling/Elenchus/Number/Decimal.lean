/-! Decimal notation: a sign, digits and a power of ten, and how such a number is written. -/

namespace Elenchus

/-- The number `± digits · 10 ^ exponent`. -/
structure Decimal where
  negative : Bool
  digits : Nat
  exponent : Int
  deriving DecidableEq, Inhabited

namespace Decimal

/-- Moves trailing zeros into the exponent, at most `steps` of them. -/
def normalizeWithin : (steps : Nat) → Decimal → Decimal
  | 0, d => d
  | steps + 1, d =>
    if d.digits = 0 then { d with exponent := 0 }
    else if d.digits % 10 = 0 then
      normalizeWithin steps { d with digits := d.digits / 10, exponent := d.exponent + 1 }
    else d

def normalize (d : Decimal) : Decimal := d.normalizeWithin (d.digits.repr.length + 1)

/-- Two digits at least. -/
def exponentText (n : Nat) : String := if n < 10 then "0" ++ n.repr else n.repr

/-- Positional from 0.0001 up to sixteen digits before the point, with an exponent beyond. -/
def text (d : Decimal) : String :=
  let d := d.normalize
  let sign := if d.negative then "-" else ""
  let ds := d.digits.repr.toList
  let lead : Int := ds.length + d.exponent - 1
  let body :=
    if d.digits = 0 then "0.0"
    else if 0 ≤ lead ∧ lead < 16 then
      let whole := ds.take (lead.toNat + 1)
      let zeros := List.replicate (lead.toNat + 1 - ds.length) '0'
      let rest := ds.drop (lead.toNat + 1)
      String.ofList (whole ++ zeros ++ ['.'] ++ if rest.isEmpty then ['0'] else rest)
    else if -4 ≤ lead ∧ lead < 0 then
      String.ofList (['0', '.'] ++ List.replicate (-lead - 1).toNat '0' ++ ds)
    else
      let rest := ds.drop 1
      let point := if rest.isEmpty then [] else '.' :: rest
      String.ofList (ds.take 1 ++ point) ++ "e" ++ (if lead < 0 then "-" else "+") ++
        exponentText lead.natAbs
  sign ++ body

end Decimal

end Elenchus

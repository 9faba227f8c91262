import Elenchus.Subst.Basic

/-!
Fresh variable names. A renamer counts the names it has handed out, and a fresh name is the stem of
the old one, a mark and the count, so that no two fresh names of one renamer are equal.
-/

namespace Elenchus

/-- Digits and underscores at the end of a name are its numbering. -/
def isNumbering (c : Char) : Bool := c.isDigit || c == '_'

/-- A name without its numbering, or `fallback` if nothing else is left. -/
def nameStem (fallback name : String) : String :=
  match (name.toList.reverse.dropWhile isNumbering).reverse with
  | [] => fallback
  | cs => String.ofList cs

/-- Names in the order of their code points. -/
def sortNames (names : List String) : List String := names.mergeSort fun a b => decide (a ≤ b)

structure Renamer where
  mark : String := "_"
  counter : Nat := 0
  deriving DecidableEq

namespace Renamer

def fresh (r : Renamer) (hint : String) : String × Renamer :=
  let n := r.counter + 1
  (nameStem "v" hint ++ r.mark ++ n.repr, { r with counter := n })

/-- A fresh name for every listed variable, in the order of the list. -/
def freshFor (r : Renamer) : List String → List (String × Term) × Renamer
  | [] => ([], r)
  | x :: xs =>
    let (y, r) := r.fresh x
    let (ps, r) := r.freshFor xs
    ((x, .var y) :: ps, r)

/-- Renames the given variables; names are handed out in alphabetical order. -/
def renamingFor (r : Renamer) (vars : List String) : Subst × Renamer :=
  let (ps, r) := r.freshFor (sortNames vars)
  (.ofList ps, r)

end Renamer

end Elenchus

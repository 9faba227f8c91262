import Elenchus.Formula.Basic

/-!
Formulas in writing. Parentheses stand around a connective that binds no tighter than the place it
stands in; negations and quantifiers reach over the next unary formula only.
-/

namespace Elenchus.Formula

/-- Encloses `text` if the level of its connective does not exceed the level around it. -/
def enclose (level outer : Nat) (text : String) : String :=
  if level ≤ outer then "(" ++ text ++ ")" else text

/-- Levels: 1 for `↔`, 2 for `→`, 3 for `∨`, 4 for `∧`, 5 under a negation or quantifier. -/
def renderIn : Nat → Formula → String
  | _, .atomic a => a.text
  | _, .not f => "¬" ++ renderIn 5 f
  | _, .all x f => "∀" ++ x.name?.getD "" ++ " " ++ renderIn 5 f
  | _, .ex x f => "∃" ++ x.name?.getD "" ++ " " ++ renderIn 5 f
  | n, .and f g => enclose 4 n (renderIn 4 f ++ " ∧ " ++ renderIn 4 g)
  | n, .or f g => enclose 3 n (renderIn 3 f ++ " ∨ " ++ renderIn 3 g)
  | n, .implies f g => enclose 2 n (renderIn 3 f ++ " → " ++ renderIn 2 g)
  | n, .iff f g => enclose 1 n (renderIn 2 f ++ " ↔ " ++ renderIn 2 g)
  | _, .stray i => i.text

def render (f : Formula) : String := renderIn 0 f

/-- The first thing, from left to right, that cannot be written or renamed: a binder without a name
or a stray item. -/
def namingFault : Formula → Option Misshape
  | .atomic _ => none
  | .not f => f.namingFault
  | .and f g | .or f g | .implies f g | .iff f g => f.namingFault <|> g.namingFault
  | .all x f | .ex x f =>
    match x.name? with
    | some _ => f.namingFault
    | none => some (.namelessBinder x)
  | .stray i => some (.notFormula (.stray i))

def render? (f : Formula) : Except Misshape String :=
  match f.namingFault with
  | some fault => .error fault
  | none => .ok f.render

/-- How messages quote a formula; a lone stray item stands as it is. -/
def quote? : Formula → Except Misshape String
  | .stray i => .ok i.plain
  | f => f.render?

end Elenchus.Formula

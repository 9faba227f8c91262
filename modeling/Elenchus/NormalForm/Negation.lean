import Elenchus.Formula.Basic

/-!
Negation normal form: no implications or equivalences, and negations on atoms only. Implications are
unfolded on the way, so a formula need not be free of them beforehand.
-/

namespace Elenchus.Formula

/-- Unfolds `A ↔ B` into `(¬A ∨ B) ∧ (¬B ∨ A)` and `A → B` into `¬A ∨ B`. -/
def eliminate : Formula → Formula
  | .atomic a => .atomic a
  | .not f => .not f.eliminate
  | .and f g => .and f.eliminate g.eliminate
  | .or f g => .or f.eliminate g.eliminate
  | .implies f g => .or (.not f.eliminate) g.eliminate
  | .iff f g => .and (.or (.not f.eliminate) g.eliminate) (.or (.not g.eliminate) f.eliminate)
  | .all x f => .all x f.eliminate
  | .ex x f => .ex x f.eliminate
  | .stray i => .stray i

/-- The negation normal form of a formula, or of its negation if `negated`. -/
def pushNegations : (negated : Bool) → Formula → Formula
  | false, .atomic a => .atomic a
  | true, .atomic a => .not (.atomic a)
  | n, .not f => f.pushNegations (!n)
  | false, .and f g => .and (f.pushNegations false) (g.pushNegations false)
  | true, .and f g => .or (f.pushNegations true) (g.pushNegations true)
  | false, .or f g => .or (f.pushNegations false) (g.pushNegations false)
  | true, .or f g => .and (f.pushNegations true) (g.pushNegations true)
  | false, .implies f g => .or (f.pushNegations true) (g.pushNegations false)
  | true, .implies f g => .and (f.pushNegations false) (g.pushNegations true)
  | false, .iff f g =>
    .and (.or (f.pushNegations true) (g.pushNegations false))
      (.or (g.pushNegations true) (f.pushNegations false))
  | true, .iff f g =>
    .or (.and (f.pushNegations false) (g.pushNegations true))
      (.and (g.pushNegations false) (f.pushNegations true))
  | false, .all x f => .all x (f.pushNegations false)
  | true, .all x f => .ex x (f.pushNegations true)
  | false, .ex x f => .ex x (f.pushNegations false)
  | true, .ex x f => .all x (f.pushNegations true)
  | false, .stray i => .stray i
  | true, .stray i => .not (.stray i)

def nnf (f : Formula) : Formula := f.pushNegations false

/-- The first subtree, in the order in which negations are pushed, that is no formula. A negation
directly above a stray item is refused as a whole; implications are unfolded first and so name the
stray item itself. -/
def nnfStray : (negated : Bool) → Formula → Option Formula
  | _, .atomic _ => none
  | n, .not f => f.nnfStray (!n)
  | n, .and f g | n, .or f g => f.nnfStray n <|> g.nnfStray n
  | _, .implies f g | _, .iff f g => (f.firstStray <|> g.firstStray).map .stray
  | n, .all _ f | n, .ex _ f => f.nnfStray n
  | false, .stray i => some (.stray i)
  | true, .stray i => some (.not (.stray i))

def eliminate? (f : Formula) : Except Misshape Formula := f.unlessStray f.eliminate

def nnf? (f : Formula) : Except Misshape Formula :=
  match f.nnfStray false with
  | some g => .error (.notFormula g)
  | none => .ok f.nnf

/-- Which quantifiers a normal form may still have. -/
structure Quantifiers where
  universal : Bool
  existential : Bool

/-- The first subformula from left to right that does not belong into a negation normal form with
these quantifiers. -/
def shapeFault (q : Quantifiers) : Formula → Option Formula
  | .atomic _ => none
  | .not (.atomic _) => none
  | .and f g | .or f g => f.shapeFault q <|> g.shapeFault q
  | .all x f => if q.universal then f.shapeFault q else some (.all x f)
  | .ex x f => if q.existential then f.shapeFault q else some (.ex x f)
  | f => some f

end Elenchus.Formula

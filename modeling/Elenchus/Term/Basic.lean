/-!
First-order terms. A constant is a symbol applied to nothing, so a term is a variable or an
application, and two applications agree when their symbols and their arguments do.
-/

namespace Elenchus

inductive Term where
  | var (x : String)
  | app (f : String) (args : List Term)
  deriving Inhabited

/-- A symbol with its number of arguments. -/
structure Symbol where
  name : String
  arity : Nat
  deriving DecidableEq

def Symbol.text (s : Symbol) : String := s.name ++ "/" ++ s.arity.repr

namespace Term

/-- Constants are applications without arguments. -/
abbrev const (c : String) : Term := .app c []

mutual
def decEq : (s t : Term) → Decidable (s = t)
  | .var x, .var y =>
    if h : x = y then isTrue (h ▸ rfl) else isFalse fun e => h (Term.var.inj e)
  | .app f as, .app g bs =>
    if h : f = g then
      match decEqList as bs with
      | isTrue h' => isTrue (h ▸ h' ▸ rfl)
      | isFalse h' => isFalse fun e => h' (Term.app.inj e).2
    else isFalse fun e => h (Term.app.inj e).1
  | .var _, .app _ _ => isFalse nofun
  | .app _ _, .var _ => isFalse nofun

def decEqList : (ss ts : List Term) → Decidable (ss = ts)
  | [], [] => isTrue rfl
  | s :: ss, t :: ts =>
    match decEq s t, decEqList ss ts with
    | isTrue h, isTrue h' => isTrue (h ▸ h' ▸ rfl)
    | isFalse h, _ => isFalse fun e => h (List.cons.inj e).1
    | _, isFalse h => isFalse fun e => h (List.cons.inj e).2
  | [], _ :: _ => isFalse nofun
  | _ :: _, [] => isFalse nofun
end

instance : DecidableEq Term := decEq

mutual
/-- The variables of a term from left to right, with repetitions. -/
def vars : Term → List String
  | .var x => [x]
  | .app _ ts => varsList ts

def varsList : List Term → List String
  | [] => []
  | t :: ts => t.vars ++ varsList ts
end

mutual
/-- The function symbols and constants of a term in pre-order, with repetitions. -/
def symbols : Term → List Symbol
  | .var _ => []
  | .app f ts => ⟨f, ts.length⟩ :: symbolsList ts

def symbolsList : List Term → List Symbol
  | [] => []
  | t :: ts => t.symbols ++ symbolsList ts
end

mutual
/-- Number of symbol occurrences. -/
def size : Term → Nat
  | .var _ => 1
  | .app _ ts => 1 + sizeList ts

def sizeList : List Term → Nat
  | [] => 0
  | t :: ts => t.size + sizeList ts
end

mutual
/-- Variables and constants have depth 0. -/
def depth : Term → Nat
  | .var _ => 0
  | .app _ [] => 0
  | .app _ (t :: ts) => 1 + max t.depth (depthList ts)

def depthList : List Term → Nat
  | [] => 0
  | t :: ts => max t.depth (depthList ts)
end

mutual
/-- Whether the variable `x` occurs in the term. -/
def mentions (x : String) : Term → Bool
  | .var y => x == y
  | .app _ ts => mentionsList x ts

def mentionsList (x : String) : List Term → Bool
  | [] => false
  | t :: ts => t.mentions x || mentionsList x ts
end

def isGround (t : Term) : Bool := t.vars.isEmpty

mutual
/-- `f(a, g(x))`; a constant is its bare name. -/
def text : Term → String
  | .var x => x
  | .app f [] => f
  | .app f (t :: ts) => f ++ "(" ++ t.text ++ textRest ts ++ ")"

def textRest : List Term → String
  | [] => ""
  | t :: ts => ", " ++ t.text ++ textRest ts
end

end Term

end Elenchus

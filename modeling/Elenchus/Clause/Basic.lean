import Elenchus.Clause.Literal
import Elenchus.Subst.Renaming

/-!
Clauses: finite disjunctions of literals. Of equal literals the first is kept, and the others
keep their order, so that positions recorded in a derivation stay meaningful.
-/

namespace Elenchus

theorem nodup_eraseDups {α : Type} [DecidableEq α] (l : List α) : l.eraseDups.Nodup := by
  match l with
  | [] => simp
  | a :: l =>
    rw [List.eraseDups_cons, List.nodup_cons, List.mem_eraseDups]
    exact ⟨by simp, nodup_eraseDups _⟩
termination_by l.length
decreasing_by exact Nat.lt_succ_of_le (List.length_filter_le _ _)

structure Clause where
  literals : List Literal
  nodup : literals.Nodup

namespace Clause

instance : DecidableEq Clause := fun c d =>
  if h : c.literals = d.literals then isTrue (by cases c; cases d; simp_all)
  else isFalse fun e => h (e ▸ rfl)

/-- Drops repetitions and keeps first occurrences. -/
def ofList (ls : List Literal) : Clause := ⟨ls.eraseDups, nodup_eraseDups ls⟩

instance : Inhabited Clause := ⟨ofList []⟩

def length (c : Clause) : Nat := c.literals.length

def isEmpty (c : Clause) : Bool := c.literals.isEmpty

/-- The same literals in any order. -/
def alike (c d : Clause) : Bool :=
  c.length == d.length && c.literals.all fun l => d.literals.contains l

/-- A non-empty clause made only of answer literals. -/
def isAnswer (c : Clause) : Bool := !c.isEmpty && c.literals.all Literal.isAnswer

def isTautology (c : Clause) : Bool := c.literals.any fun l => c.literals.contains l.negate

/-- The variables of a clause, each once, by first occurrence. -/
def vars (c : Clause) : List String := (c.literals.flatMap Literal.vars).eraseDups

def predicates (c : Clause) : List Symbol := c.literals.map fun l => l.atom.predicate

def symbols (c : Clause) : List Symbol := c.literals.flatMap fun l => l.atom.symbols

def keys (c : Clause) : List LiteralKey := c.literals.map Literal.key

def depth (c : Clause) : Nat := c.literals.foldl (fun n l => max n l.atom.depth) 0

/-- Number of symbol occurrences. -/
def size (c : Clause) : Nat := c.literals.foldl (fun n l => n + l.size) 0

def isUnit (c : Clause) : Bool := c.length == 1

def subst (σ : Subst) (c : Clause) : Clause := ofList (c.literals.map (Literal.subst σ))

def text (c : Clause) : String :=
  if c.isEmpty then "□" else " ∨ ".intercalate (c.literals.map Literal.text)

/-- The literals of a copy of the clause with fresh variables, and the renaming that made it. -/
def rename (c : Clause) (r : Renamer) : List Literal × Subst × Renamer :=
  let (ρ, r) := r.renamingFor c.vars
  (c.literals.map (Literal.subst ρ), ρ, r)

/-- `c` maps onto part of `targets` by some substitution that extends `σ`. -/
def coversFrom (targets : List Literal) : Subst → List Literal → Bool
  | _, [] => true
  | σ, p :: ps => targets.any fun t =>
      match σ.matchLiteral p t with
      | some τ => coversFrom targets τ ps
      | none => false

/-- Some substitution maps every literal of `c` onto a literal of `d`, and `c` is not the longer
clause, so that no clause subsumes its own factors. Large literals go first: they match least. -/
def subsumes (c d : Clause) : Bool :=
  decide (c.length ≤ d.length) &&
    coversFrom d.literals .empty (c.literals.mergeSort fun l m => decide (m.size ≤ l.size))

end Clause

end Elenchus

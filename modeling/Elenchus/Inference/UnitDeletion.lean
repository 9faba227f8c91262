import Elenchus.Inference.Basic

/-!
Unit deletion: a literal goes if its complement is an instance of an active unit clause. The rest
of the clause is left as it is.
-/

namespace Elenchus.Inference

/-- A literal that can go, with the unit that refutes it. -/
structure Deletion where
  position : Nat
  unit : Filed
  renamed : Subst
  matcher : Subst

/-- The first unit among `units` of which the complement of `l` is an instance. -/
def refutingUnit (l : Literal) (position : Nat) :
    List Filed → Renamer → Option Deletion × Renamer
  | [], r => (none, r)
  | u :: us, r =>
    match u.clause.literals with
    | [m] =>
      let (_, ρ, r) := u.clause.rename r
      match Subst.matchLiteral .empty (m.subst ρ) l.negate with
      | some σ => (some ⟨position, u, ρ, σ⟩, r)
      | none => refutingUnit l position us r
    | _ => refutingUnit l position us r

def deletionsFrom (s : Store) : List (Literal × Nat) → Renamer → List Deletion × Renamer
  | [], r => ([], r)
  | (l, i) :: rest, r =>
    let units := (s.candidates l).filterMap fun c => s.arena.filed? c.id
    let (d, r) := refutingUnit l i units r
    let (ds, r) := deletionsFrom s rest r
    (d.toList ++ ds, r)

/-- The literals of a clause that can go. -/
def deletions (s : Store) (c : Clause) (r : Renamer) : List Deletion × Renamer :=
  deletionsFrom s c.literals.zipIdx r

def unitDeleted (f : Filed) (ds : List Deletion) : Derived :=
  { clause := .ofList (dropAt (ds.map fun d => (d.position : Int)) f.clause.literals)
    derivation := some
      { rule := .str unitDeletionRule
        parents := .int f.id :: ds.map fun d => .int d.unit.id
        unifier := some (.ofSubst (.ofList (ds.flatMap fun d => d.matcher.bindings)))
        renamings := ds.map fun d => .ofSubst d.renamed
        indices := ds.map fun d => .int d.position
        depth := f.derived.deepest (ds.map fun d => d.unit.derived) } }

/-- The outcome of shortening a clause: its number, the shorter clause, and how many literals went.
-/
structure Shortened where
  id : Nat
  result : Derived
  removed : Nat

/-- Shortens a clause if a literal can go. A clause without a number gets one first, so that the
shorter one can name it as its parent. -/
def simplify (s : Store) (d : Derived) (id : Option Nat) (r : Renamer) :
    Option Shortened × Store × Renamer :=
  match deletions s d.clause r with
  | ([], r) => (none, s, r)
  | (ds, r) =>
    let (n, s) :=
      match id with
      | some n => (n, s)
      | none => s.addToArena d
    (some ⟨n, unitDeleted ⟨n, d⟩ ds, ds.length⟩, s, r)

end Elenchus.Inference

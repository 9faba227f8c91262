import Elenchus.Inference.Basic
import Elenchus.Inference.Hyperresolution
import Elenchus.Inference.UnitDeletion

/-! The inference rules as applied to numbered clauses of a store. -/

namespace Elenchus

inductive Rule where
  | resolution
  | factoring
  | hyperresolution
  | unitDeletion
  | subsumption
  deriving DecidableEq

namespace Rule

open Inference

def name : Rule → String
  | .resolution => resolutionRule
  | .factoring => factoringRule
  | .hyperresolution => hyperresolutionRule
  | .unitDeletion => unitDeletionRule
  | .subsumption => subsumptionRule

/-- No new clauses are no outcome. -/
def applicationOf (rule : Rule) (ids : List Item) : List Derived → Option Application
  | [] => none
  | ds => some { rule := rule.name, parents := ids, generated := ds }

/-- The outcome on one clause, which is numbered as `id` says. -/
def applyOne (rule : Rule) (occursCheck : Bool) (s : Store) (r : Renamer) (id : Item) (f : Filed) :
    Option Application × Store × Renamer :=
  match rule with
  | .resolution =>
    let (ds, r) := resolventsUpTo .noDepth occursCheck s f r
    (rule.applicationOf [id] ds, s, r)
  | .factoring => (rule.applicationOf [id] (factors occursCheck f), s, r)
  | .hyperresolution =>
    let (ds, r) := hyperresolventsUpTo .noDepth occursCheck s f r
    (rule.applicationOf [id] ds, s, r)
  | .unitDeletion =>
    let (d, s, r) := simplify s f.derived (some f.id) r
    (d.map fun d =>
      { rule := rule.name
        parents := Arena.parentsOf d.result
        generated := [d.result]
        deleted := [id] }, s, r)
  | .subsumption =>
    match s.backSubsumed f.clause (some f.id) with
    | [] => (none, s, r)
    | ids =>
      (some
        { rule := rule.name
          parents := [id]
          deleted := ids.map fun (n : Nat) => .int n }, s, r)

/-- The outcome on a list of numbers. -/
def apply (rule : Rule) (occursCheck : Bool) (s : Store) (r : Renamer) (ids : List Item) :
    Except NumberError (Option Application × Store × Renamer) :=
  match rule, ids with
  | rule, [i] => do
    let f ← s.arena.fetch i
    .ok (rule.applyOne occursCheck s r i f)
  | .resolution, [i, j] => do
    let f ← s.arena.fetch i
    let g ← s.arena.fetch j
    let (ds, r) := resolventsWith .noDepth occursCheck f g r
    .ok (applicationOf .resolution [i, j] ds, s, r)
  | _, _ => .ok (none, s, r)

end Rule

end Elenchus

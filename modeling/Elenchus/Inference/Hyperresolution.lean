import Elenchus.Inference.Basic

/-!
Positive unit hyperresolution: every negative literal of a nucleus is resolved at once with a
positive unit clause, its satellite, which is renamed for each use.
-/

namespace Elenchus.Inference

def isPositiveUnit (c : Clause) : Bool := c.isUnit && c.literals.all Literal.positive

/-- A unit clause that was chosen, and its renaming. -/
structure Satellite where
  unit : Filed
  renamed : Subst

def hyperresolvent (nucleus : Filed) (negatives : List Nat) (chosen : List Satellite)
    (σ : Subst) : Derived :=
  { clause := .ofList ((nucleus.clause.literals.filter Literal.positive).map (Literal.subst σ))
    derivation := some
      { rule := .str hyperresolutionRule
        parents := .int nucleus.id :: chosen.map fun s => .int s.unit.id
        unifier := some (.ofSubst σ)
        renamings := chosen.map fun s => .ofSubst s.renamed
        indices := negatives.map fun (i : Nat) => .int i
        depth := nucleus.derived.nextDepth (chosen.map fun s => s.unit.derived) } }

/-- Unifies `l` with each unit in turn. `next` goes on with the literals after `l`. -/
def tryUnits (halt : Halt) (occursCheck : Bool) (l : Literal) (σ : Subst)
    (next : Subst → Satellite → Renamer → List Derived × Renamer) :
    List Filed → Renamer → List Derived × Renamer
  | [], r => ([], r)
  | u :: us, r =>
    match u.clause.literals with
    | [m] =>
      if m.key = l.oppositeKey then
        let (_, ρ, r) := u.clause.rename r
        match Subst.unifyOpposite occursCheck σ l (m.subst ρ) with
        | some τ =>
          let (ds, r) := next τ ⟨u, ρ⟩ r
          if ds.any halt then (ds, r)
          else
            let (es, r) := tryUnits halt occursCheck l σ next us r
            (ds ++ es, r)
        | none => tryUnits halt occursCheck l σ next us r
      else tryUnits halt occursCheck l σ next us r
    | _ => tryUnits halt occursCheck l σ next us r

/-- Goes through the negative literals that are left and tries all units for each. -/
def combineFrom (halt : Halt) (occursCheck : Bool) (units : List Filed)
    (finish : List Satellite → Subst → List Derived) :
    List Literal → Subst → List Satellite → Renamer → List Derived × Renamer
  | [], σ, chosen, r => (finish chosen σ, r)
  | l :: ls, σ, chosen, r =>
    tryUnits halt occursCheck l σ
      (fun τ s r => combineFrom halt occursCheck units finish ls τ (chosen ++ [s]) r) units r

/-- All hyperresolvents of a nucleus; with `required` only those that use that unit. -/
def combine (halt : Halt) (occursCheck : Bool) (nucleus : Filed) (units : List Filed)
    (required : Option Nat) (r : Renamer) : List Derived × Renamer :=
  let negatives := nucleus.clause.literals.zipIdx.filter fun p => !p.1.positive
  combineFrom halt occursCheck units
    (fun chosen σ =>
      if required.all fun id => chosen.any fun s => s.unit.id == id then
        [hyperresolvent nucleus (negatives.map Prod.snd) chosen σ]
      else [])
    (negatives.map Prod.fst) .empty [] r

def combineEach (halt : Halt) (occursCheck : Bool) (given : Filed) (units : List Filed) :
    (nuclei : List Filed) → Renamer → List Derived × Renamer
  | [], r => ([], r)
  | n :: ns, r =>
    let (ds, r) :=
      if n.clause.literals.all Literal.positive then ([], r)
      else if n.id = given.id then combine halt occursCheck n units none r
      else if isPositiveUnit given.clause then combine halt occursCheck n units (some given.id) r
      else ([], r)
    if ds.any halt then (ds, r)
    else
      let (es, r) := combineEach halt occursCheck given units ns r
      (ds ++ es, r)

/-- Hyperresolvents over active clauses in which `given` is the nucleus or a satellite, up to one
at which `halt` holds. -/
def hyperresolventsUpTo (halt : Halt) (occursCheck : Bool) (s : Store) (given : Filed)
    (r : Renamer) : List Derived × Renamer :=
  let units := s.clauses.filter fun c => isPositiveUnit c.clause
  combineEach halt occursCheck given units s.clauses r

/-- All hyperresolvents over active clauses in which `given` is the nucleus or a satellite. -/
def hyperresolvents (occursCheck : Bool) (s : Store) (given : Filed) (r : Renamer) :
    List Derived × Renamer :=
  hyperresolventsUpTo .never occursCheck s given r

end Elenchus.Inference

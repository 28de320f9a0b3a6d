import Conformance.Checker.Subtyping

/-!
Queries. A query nested within `n` more levels asks its own questions with
`n - 1`; the guard refuses any entry where no level is left, so a run never
asks beyond the budget. `Config.queries` starts from the levels that the guard
of the current state has left.
-/

namespace Conformance

namespace Config

variable (cfg : Config)

/-- The queries with `n` levels of nesting left. -/
def queriesUpTo : Nat → Queries
  | 0 =>
    { sub := fun l r depth => CheckM.reported .subtype depth.remaining? <|
        CheckM.guarded (·.enter (l, r)) (return false)
      same := fun _ _ => CheckM.reported .sameType none <|
        CheckM.guarded (·.enterUntracked) (return false) }
  | n + 1 =>
    { sub := fun l r depth => CheckM.reported .subtype depth.remaining? <|
        CheckM.guarded (·.enter (l, r)) (subStep cfg (queriesUpTo n) l r depth)
      same := fun l r => CheckM.reported .sameType none <|
        CheckM.guarded (·.enterUntracked) (sameStep cfg (queriesUpTo n) l r) }

/-- Levels of nesting that the guard has left. -/
def levelsLeft (s : CheckState) : Nat := s.guard.maxDepth - s.guard.depth

/-- Run an operation with the queries that the current state allows. -/
def withQueries {α : Type} (f : Queries → CheckM α) : CheckM α := do
  f (cfg.queriesUpTo (levelsLeft (← get)))

/-- `l <: r`, with `depth` levels of widening. -/
def isSubtypeDepth (l r : Ty) (depth : Depth) : CheckM Bool := cfg.withQueries (·.sub l r depth)

/-- `l <: r` -/
def isSubtype (l r : Ty) : CheckM Bool := cfg.isSubtypeDepth l r .unlimited

/-- `l =:= r` -/
def isSameType (l r : Ty) : CheckM Bool := cfg.withQueries (·.same l r)

/-- Elementwise equivalence of lists of one length. -/
def isSameTypes (ls rs : List Ty) : CheckM Bool := cfg.withQueries (·.sameAll ls rs)

/-- Inequivalence, leaving no constraint behind. -/
def isDifferentType (l r : Ty) : CheckM Bool := cfg.withQueries (·.different l r)

/-- Does `ty` have a member that matches the refinement member `s`? -/
def specializesSym (ty : Ty) (s : SymbolId) (depth : Depth) : CheckM Bool :=
  cfg.withQueries fun q => specializes cfg q ty s depth

/-- Arguments within the bounds of parameters declared in `owner`, seen from `pre`. -/
def isWithinBounds (pre : Ty) (owner : SymbolId) (tparams : List SymbolId) (targs : List Ty) :
    CheckM Bool := cfg.withQueries fun q => withinBounds cfg q pre owner tparams targs

/-- Instantiate variables that stand for type parameters, or say why not. -/
def solveVars (tvars : List Ty) (tparams : List SymbolId) (variances : List Variance) (upper : Bool)
    (depth : Depth) : CheckM (Except (SolveError Ty) (List Ty)) :=
  cfg.withQueries fun q => (solve cfg q tvars tparams variances upper depth).run

/-- Both relations of a pair, conformance first. -/
def compare (l r : Ty) (depth : Depth) : CheckM (Bool × Bool) := do
  let sub ← cfg.isSubtypeDepth l r depth
  let same ← cfg.isSameType l r
  return (sub, same)

/-- Ask a checker of its own, without variables, over the same declarations. -/
def aside {α : Type} (x : Config → CheckM α) : CheckM α := fun s =>
  CheckM.ending (x cfg)
    (fun s' => { s' with vars := s.vars, guard := s.guard, skolems := s.skolems })
    (.fresh cfg.policy s.table s.queries s.events)

def leastUpperBound (types : List Ty) : CheckM Ty := cfg.withQueries fun q => lub cfg q types

def greatestLowerBound (types : List Ty) : CheckM Ty := cfg.withQueries fun q => glb cfg q types

end Config

end Conformance

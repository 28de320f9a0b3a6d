import Conformance.Depth
import Conformance.Guard
import Conformance.VarLog
import Conformance.View.Existential
import Conformance.View.Member

/-!
State of a checker and the brackets around its queries.

A query is transactional: what it did to type variables is kept if it answers
`true` and taken back if it answers `false` or fails. Symbols that it entered
stay. The rules take the queries they may ask as a parameter (`Queries`).
-/

namespace Conformance

structure Policy where
  /-- Nesting level from which pending pairs are tracked. -/
  pendingThreshold : Nat := Limits.pendingThreshold
  /-- Nesting level beyond which a query is answered `false`. -/
  maxDepth : Nat := Limits.subtypeDepth
  /-- Ignore prefixes of references to one symbol. -/
  erasedTypes : Bool := false
  checkAnnotations : Bool := true
  /-- Compare variances of type constructors. -/
  checkVariance : Bool := true
deriving DecidableEq, Repr, Inhabited

/-- Do the annotations of the first type conform to those of the second? -/
abbrev AnnotationChecker := Ty → Ty → SymM Bool

namespace AnnotationChecker

/-- Every annotation on the right whose class is a type constraint is also on the left. -/
def typeConstraints : AnnotationChecker := fun l r => do
  let t ← get
  return r.annotations.all fun a => !(t.flags a).has .typeConstraint || l.annotations.contains a

def acceptAll : AnnotationChecker := fun _ _ => return true

def rejectAll : AnnotationChecker := fun _ _ => return false

end AnnotationChecker

/-- What a checker is given and never changes. -/
structure Config where
  policy : Policy
  annotations : AnnotationChecker
  /-- Bound on the nesting of declarations within type operations. -/
  fuel : Nat

inductive Relation where
  | subtype
  | sameType
deriving DecidableEq, Repr, Inhabited

/-- Outermost queries report their start and their answer. -/
inductive QueryEvent where
  | start (query : Nat) (op : Relation) (depth : Option Nat)
  | finish (query : Nat) (op : Relation) (result : Bool) (iterations cycles : Nat)
deriving DecidableEq, Repr, Inhabited

/-- The pair that a query compares. -/
abbrev QueryKey := Ty × Ty

structure CheckState where
  table : SymbolTable
  vars : VarLog Ty := {}
  guard : Guard QueryKey
  /-- Nesting of opened existentials. -/
  skolems : DepthCounter := ⟨Limits.word, 0, false⟩
  /-- Outermost queries so far. -/
  queries : Nat := 0
  events : Array QueryEvent := #[]
deriving Inhabited

/-- A checker without variables over `table`, after the given queries and events. -/
def CheckState.fresh (policy : Policy) (table : SymbolTable) (queries : Nat)
    (events : Array QueryEvent) : CheckState :=
  { table, queries, events,
    guard := { trackFrom := policy.pendingThreshold, maxDepth := policy.maxDepth } }

abbrev CheckM := EStateM Failure CheckState

namespace CheckM

def onTable {α : Type} (x : SymM α) : CheckM α := fun s =>
  match x.run s.table with
  | .ok a table => .ok a { s with table }
  | .error e table => .error e { s with table }

instance : MonadLift SymM CheckM := ⟨onTable⟩

def readTable : CheckM SymbolTable := return (← get).table

def varInfo? (v : VarId) : CheckM (Option (VarInfo Ty)) := return (← get).vars.info? v

def updateVar (v : VarId) (f : VarInfo Ty → VarInfo Ty) : CheckM Unit :=
  modify fun s => { s with vars := s.vars.update v f }

/-- A variable at the current level. -/
def freshVar (origin : Ty) (constraint : Constraint Ty) : CheckM Ty :=
  modifyGet fun s =>
    let (v, vars) := s.vars.fresh origin s.skolems.depth constraint
    (.var v, { s with vars })

/-- Run `cleanup` after `x`, also when `x` fails. -/
def ending {α : Type} (x : CheckM α) (cleanup : CheckState → CheckState) : CheckM α := fun s =>
  match x s with
  | .ok a s' => .ok a (cleanup s')
  | .error e s' => .error e (cleanup s')

/-- Keep what `x` did to the variables only if it answers `true`. -/
def probe (x : CheckM Bool) : CheckM Bool := fun s =>
  let (snapshot, vars) := s.vars.lock.snapshot
  match x { s with vars } with
  | .ok true s' => .ok true { s' with vars := s'.vars.commit.unlock }
  | .ok false s' => .ok false { s' with vars := (s'.vars.undoTo snapshot).unlock }
  | .error e s' => .error e { s' with vars := (s'.vars.undoTo snapshot).unlock }

/-- Take back what `x` did to the variables. -/
def speculate {α : Type} (x : CheckM α) : CheckM α := fun s =>
  let (snapshot, vars) := s.vars.lock.snapshot
  ending x (fun s' => { s' with vars := (s'.vars.undoTo snapshot).unlock }) { s with vars }

/-- A probe within the guard; a refused entry answers `false`. -/
def guarded (enter : Guard QueryKey → Admission QueryKey × Guard QueryKey) (x : CheckM Bool) :
    CheckM Bool := do
  let admission ← modifyGet fun s =>
    let (admission, guard) := enter s.guard
    (admission, { s with guard })
  match admission with
  | .entered entry => ending (probe x) fun s => { s with guard := s.guard.leave entry }
  | .cycle => return false
  | .tooDeep => return false

/-- Report `x` if no query is live. A failing query reports no answer. -/
def reported (op : Relation) (depth : Option Nat) (x : CheckM Bool) : CheckM Bool := do
  if (← get).guard.isActive then x
  else
    let query ← modifyGet fun s =>
      (s.queries, { s with
        queries := s.queries + 1
        events := s.events.push (.start s.queries op depth) })
    let result ← x
    modify fun s =>
      { s with events := s.events.push (.finish query op result s.guard.iterations s.guard.cycles) }
    return result

/-- Run `x` one skolemization level deeper. -/
def atDeeperLevel {α : Type} (x : Nat → CheckM α) : CheckM α := do
  let (entered, level) ← modifyGet fun s =>
    let (entered, skolems) := s.skolems.enter
    ((entered, skolems.depth), { s with skolems })
  if entered then ending (x level) fun s => { s with skolems := s.skolems.leave } else x level

end CheckM

/-- The queries that a rule may ask. -/
structure Queries where
  sub : Ty → Ty → Depth → CheckM Bool
  same : Ty → Ty → CheckM Bool

namespace Queries

/-- Elementwise equivalence of lists of one length. -/
def sameAll (q : Queries) (ls rs : List Ty) : CheckM Bool :=
  if ls.length = rs.length then (ls.zip rs).allM fun (l, r) => q.same l r else return false

/-- Inequivalence, leaving no constraint behind. -/
def different (q : Queries) (l r : Ty) : CheckM Bool :=
  return !(← CheckM.speculate (q.same l r))

end Queries

/-- Conformance of annotations, if the policy asks for it. -/
def annotationsConform (cfg : Config) (l r : Ty) : CheckM Bool :=
  if cfg.policy.checkAnnotations then CheckM.onTable (cfg.annotations l r) else return true

end Conformance

import Conformance.KeySet
import Conformance.Limits

/-!
Nesting guards. A guard counts the live entries of a recursive question and,
from a threshold on, holds their keys as pending; a key met again while pending
is a cycle. A refused entry changes only the statistics.
-/

namespace Conformance

/-- Limits of a guard: where tracking starts and how deep entries may nest. -/
inductive GuardProfile where
  | pendingSubtypes
  | linearization
  | baseTypeExpansion
  | skolemizationLevel
  | custom (trackFrom maxDepth : Nat)
deriving DecidableEq, Repr, Inhabited

namespace GuardProfile

def trackFrom : GuardProfile → Nat
  | .pendingSubtypes => Limits.pendingThreshold
  | .linearization => 0
  | .baseTypeExpansion => Limits.word
  | .skolemizationLevel => Limits.word
  | .custom trackFrom _ => trackFrom

def maxDepth : GuardProfile → Nat
  | .pendingSubtypes => Limits.subtypeDepth
  | .linearization => Limits.linearizationDepth
  | .baseTypeExpansion => Limits.baseTypeDepth
  | .skolemizationLevel => Limits.word
  | .custom _ maxDepth => maxDepth

end GuardProfile

/-- A live entry, with its key if it is tracked. -/
structure Entry (κ : Type) where
  tracked : Option κ
deriving DecidableEq, Repr

inductive Admission (κ : Type) where
  | entered (entry : Entry κ)
  /-- The key is pending. -/
  | cycle
  /-- Entries nest too deeply. -/
  | tooDeep
deriving DecidableEq, Repr

namespace Admission

variable {κ : Type}

def isEntered : Admission κ → Bool
  | .entered _ => true
  | _ => false

def isCycle : Admission κ → Bool
  | .cycle => true
  | _ => false

def isDenied (a : Admission κ) : Bool := !a.isEntered

end Admission

structure Guard (κ : Type) [DecidableEq κ] [Hashable κ] where
  trackFrom : Nat
  maxDepth : Nat
  depth : Nat := 0
  pending : KeySet κ := .empty
  /-- Attempts to enter. -/
  iterations : Nat := 0
  /-- Attempts refused because their key was pending. -/
  cycles : Nat := 0
  /-- Attempts refused because of the depth. -/
  cutoffs : Nat := 0
deriving Repr, Inhabited

namespace Guard

variable {κ : Type} [DecidableEq κ] [Hashable κ]

def ofProfile (p : GuardProfile) : Guard κ := { trackFrom := p.trackFrom, maxDepth := p.maxDepth }

def isActive (g : Guard κ) : Bool := decide (0 < g.depth)

/-- Try to enter without a key. -/
def enterUntracked (g : Guard κ) : Admission κ × Guard κ :=
  if g.maxDepth ≤ g.depth then
    (.tooDeep, { g with iterations := g.iterations + 1, cutoffs := g.cutoffs + 1 })
  else (.entered ⟨none⟩, { g with iterations := g.iterations + 1, depth := g.depth + 1 })

/-- Try to enter with a key. The level is raised first, then the threshold decides
whether the key is tracked. -/
def enter (g : Guard κ) (key : κ) : Admission κ × Guard κ :=
  if g.maxDepth ≤ g.depth then
    (.tooDeep, { g with iterations := g.iterations + 1, cutoffs := g.cutoffs + 1 })
  else if g.depth + 1 < g.trackFrom then
    (.entered ⟨none⟩, { g with iterations := g.iterations + 1, depth := g.depth + 1 })
  else if g.pending.contains key then
    (.cycle, { g with iterations := g.iterations + 1, cycles := g.cycles + 1 })
  else
    (.entered ⟨some key⟩,
      { g with
        iterations := g.iterations + 1, depth := g.depth + 1, pending := g.pending.insert key })

def leave (g : Guard κ) (e : Entry κ) : Guard κ :=
  { g with
    depth := g.depth - 1
    pending := match e.tracked with
      | some key => g.pending.erase key
      | none => g.pending }

def resetStats (g : Guard κ) : Guard κ := { g with iterations := 0, cycles := 0, cutoffs := 0 }

end Guard

/-- Nesting counter without keys. -/
structure DepthCounter where
  maxDepth : Nat
  depth : Nat := 0
  /-- An entry was refused at some time. -/
  exceeded : Bool := false
deriving DecidableEq, Repr, Inhabited

namespace DepthCounter

/-- One level deeper; `false` when the limit forbids it. -/
def enter (c : DepthCounter) : Bool × DepthCounter :=
  if c.maxDepth ≤ c.depth then (false, { c with exceeded := true })
  else (true, { c with depth := c.depth + 1 })

def leave (c : DepthCounter) : DepthCounter := { c with depth := c.depth - 1 }

end DepthCounter

end Conformance

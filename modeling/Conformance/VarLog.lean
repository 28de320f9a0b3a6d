import Conformance.Constraint
import Conformance.SnapshotVec
import Conformance.Ty.Basic

/-!
Type variables with an undo log. They stand in a vector whose snapshots can be
taken back, so undoing a snapshot restores the variables it saw. The changes of
a committed snapshot stay undoable by the snapshots around it.
-/

namespace Conformance

structure UndoLog (V : Type) {α S : Type} [SnapshotVec V α S] [LawfulSnapshotVec V] where
  vec : V := SnapshotVec.empty
  openSnapshots : Nat := 0
  locks : Nat := 0
  /-- The vector has as many open snapshots. -/
  counted : SnapshotVec.opened vec = openSnapshots := by rfl
deriving DecidableEq

namespace UndoLog

variable {V S τ : Type} [SnapshotVec V (VarInfo τ) S] [LawfulSnapshotVec V]

def vars (l : UndoLog V) : Array (VarInfo τ) := SnapshotVec.values l.vec

def contains (l : UndoLog V) (v : VarId) : Bool := decide (v.val < l.vars.size)

def info? (l : UndoLog V) (v : VarId) : Option (VarInfo τ) := l.vars[v.val]?

def inSnapshot (l : UndoLog V) : Bool := decide (0 < l.openSnapshots)

def isLocked (l : UndoLog V) : Bool := decide (0 < l.locks)

def fresh (l : UndoLog V) (origin : τ) (level : Nat)
    (constraint : Constraint τ) : VarId × UndoLog V :=
  let pushed := SnapshotVec.push l.vec { origin, level, constraint }
  (⟨pushed.1⟩, { l with
    vec := pushed.2
    counted := (LawfulSnapshotVec.push_spec l.vec _).2.2.1.trans l.counted })

/-- Change a variable; an unknown one is left alone. -/
def update (l : UndoLog V) (v : VarId) (f : VarInfo τ → VarInfo τ) : UndoLog V :=
  if h : l.contains v then
    { l with
      vec := SnapshotVec.update l.vec v.val f
      counted := (LawfulSnapshotVec.update_spec l.vec (of_decide_eq_true h) f).2.1.trans l.counted }
  else l

def suspend (l : UndoLog V) (v : VarId) : UndoLog V := l.update v ({ · with suspended := true })

def resume (l : UndoLog V) (v : VarId) : UndoLog V := l.update v ({ · with suspended := false })

def lock (l : UndoLog V) : UndoLog V := { l with locks := l.locks + 1 }

def unlock (l : UndoLog V) : UndoLog V := { l with locks := l.locks - 1 }

def snapshot (l : UndoLog V) : S × UndoLog V :=
  let started := SnapshotVec.startSnapshot l.vec
  (started.1, { l with
    vec := started.2
    openSnapshots := l.openSnapshots + 1
    counted := by rw [(LawfulSnapshotVec.startSnapshot_spec l.vec).2.2.1, l.counted] })

/-- Take back every write since the snapshot. -/
def undoTo (l : UndoLog V) (s : S) : UndoLog V :=
  { l with
    vec := SnapshotVec.rollbackTo l.vec s
    openSnapshots := l.openSnapshots - 1
    counted := by rw [(LawfulSnapshotVec.rollbackTo_spec l.vec s).1, l.counted] }

/-- Keep every write since the innermost snapshot. -/
def commit (l : UndoLog V) : UndoLog V :=
  { l with
    vec := SnapshotVec.commit l.vec
    openSnapshots := l.openSnapshots - 1
    counted := by rw [(LawfulSnapshotVec.commit_spec l.vec).2.1, l.counted] }

end UndoLog

/-- The log of a checker over types `τ`. -/
abbrev VarLog (τ : Type) : Type := UndoLog (LoggedVec (VarInfo τ))

instance {τ : Type} : Inhabited (VarLog τ) := ⟨{}⟩

end Conformance

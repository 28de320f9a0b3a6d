/-!
Vectors that can be taken back to how a snapshot found them. Such a vector is
known by its operations and by what it keeps: its values, a log of pushes and
old values, the latest first, and the number of open snapshots. The laws say
what each operation makes of these. They leave open what is logged outside
snapshots, where nothing can be taken back.
-/

namespace Conformance

/-- How to take one write back. -/
inductive Undo (α : Type) where
  /-- A value was added. -/
  | added
  /-- The value at `index` was `old`. -/
  | changed (index : Nat) (old : α)
deriving DecidableEq, Repr

def Undo.revert {α : Type} (values : Array α) : Undo α → Array α
  | .added => values.pop
  | .changed index old => values.setIfInBounds index old

/-- Vectors `V` of `α` with snapshots `S`. -/
class SnapshotVec (V : Type) (α S : outParam Type) where
  empty : V
  /-- The index of the new value, and the vector with it. -/
  push : V → α → Nat × V
  update : V → Nat → (α → α) → V
  startSnapshot : V → S × V
  rollbackTo : V → S → V
  /-- The innermost snapshot is closed and its writes are kept. -/
  commit : V → V
  values : V → Array α
  log : V → List (Undo α)
  opened : V → Nat
  /-- Length of the log when the snapshot was taken. -/
  mark : S → Nat

open SnapshotVec in
class LawfulSnapshotVec (V : Type) {α S : outParam Type} [SnapshotVec V α S] : Prop where
  empty_spec : values (empty : V) = #[] ∧ opened (empty : V) = 0
  push_spec (v : V) (a : α) : (push v a).1 = (values v).size ∧ values (push v a).2 = (values v).push
    a ∧ opened (push v a).2 = opened v ∧ (0 < opened v → log (push v a).2 = .added :: log v)
  update_spec (v : V) {i : Nat} (there : i < (values v).size) (f : α → α) : values (update v i f) =
    (values v).setIfInBounds i (f (values v)[i]) ∧ opened (update v i f) = opened v ∧
      (0 < opened v → log (update v i f) = .changed i (values v)[i] :: log v)
  startSnapshot_spec (v : V) : mark V (startSnapshot v).1 = (log v).length ∧
    values (startSnapshot v).2 = values v ∧ opened (startSnapshot v).2 = opened v + 1 ∧
    log (startSnapshot v).2 = log v
  rollbackTo_spec (v : V) (s : S) : opened (rollbackTo v s) = opened v - 1 ∧
    ∀ {writes rest}, log v = writes ++ rest → mark V s = rest.length →
      values (rollbackTo v s) = writes.foldl Undo.revert (values v) ∧ log (rollbackTo v s) = rest
  commit_spec (v : V) : values (commit v) = values v ∧ opened (commit v) = opened v - 1 ∧
    (1 < opened v → log (commit v) = log v)

/-- Length of the log when a snapshot was taken. -/
structure Snapshot where
  mark : Nat
deriving DecidableEq, Repr, Inhabited

/-- A vector beside its log. -/
@[ext]
structure LoggedVec (α : Type) where
  values : Array α := #[]
  log : List (Undo α) := []
  opened : Nat := 0
deriving DecidableEq, Repr

namespace LoggedVec

variable {α : Type}

/-- Record a write if a snapshot could ask for it back. -/
def record (v : LoggedVec α) (u : Undo α) : LoggedVec α :=
  if 0 < v.opened then { v with log := u :: v.log } else v

instance : SnapshotVec (LoggedVec α) α Snapshot where
  empty := {}
  push v a := (v.values.size, { v.record .added with values := v.values.push a })
  update v i f :=
    if h : i < v.values.size then
      { v.record (.changed i v.values[i]) with values := v.values.setIfInBounds i (f v.values[i]) }
    else v
  startSnapshot v := (⟨v.log.length⟩, { v with opened := v.opened + 1 })
  rollbackTo v s :=
    let writes := v.log.length - s.mark
    { values := (v.log.take writes).foldl Undo.revert v.values
      log := v.log.drop writes
      opened := v.opened - 1 }
  -- with the outermost snapshot closed nothing can be taken back
  commit v := { v with log := if v.opened = 1 then [] else v.log, opened := v.opened - 1 }
  values := values
  log := log
  opened := opened
  mark := Snapshot.mark

@[simp] theorem record_opened (v : LoggedVec α) (u : Undo α) : (v.record u).opened = v.opened := by
  unfold record
  split <;> rfl

theorem record_log {v : LoggedVec α} (h : 0 < v.opened)
    (u : Undo α) : (v.record u).log = u :: v.log := by
  rw [record, if_pos h]

instance : LawfulSnapshotVec (LoggedVec α) where
  empty_spec := ⟨rfl, rfl⟩
  push_spec v a := ⟨rfl, rfl, v.record_opened _, fun h => record_log h _⟩
  update_spec v i there f := by
    simp only [SnapshotVec.update, SnapshotVec.values] at there ⊢
    simpa [there, SnapshotVec.opened, SnapshotVec.log] using fun h => record_log h _
  startSnapshot_spec v := ⟨rfl, rfl, rfl, rfl⟩
  rollbackTo_spec v s := by
    refine ⟨rfl, fun {writes rest} log mark => ?_⟩
    have log : v.log = writes ++ rest := log
    have mark : s.mark = rest.length := mark
    simp [SnapshotVec.rollbackTo, SnapshotVec.values, SnapshotVec.log, log, mark]
  commit_spec v := ⟨rfl, rfl, fun h => if_neg (Nat.ne_of_gt h)⟩

end LoggedVec

end Conformance

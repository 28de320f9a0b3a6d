import Conformance.Proofs.UndoLog

/-! # Nested snapshots

A nest holds, beside a log, the log as each open snapshot found it. Whatever is written, committed
and undone inside a snapshot, undoing it gives back the variables that it found, over any vector
with the laws of one. -/

namespace Conformance

open LawfulSnapshotVec

variable {V S τ : Type} [SnapshotVec V (VarInfo τ) S] [LawfulSnapshotVec V]

/-- A log beside the logs that its open snapshots found, the innermost first. -/
structure Nest (V : Type) {α S : Type} [SnapshotVec V α S] [LawfulSnapshotVec V] where
  log : UndoLog V
  opened : List (UndoLog V) := []

/-- A snapshot takes the writes since then back, and leaves those before it to be taken back. -/
theorem UndoLog.Regains.undoTo {v w : UndoLog V} (h : w.Regains v) :
    (w.undoTo v.snapshot.1).vars = v.vars ∧ (w.undoTo v.snapshot.1).Regains v := by
  obtain ⟨writes, hlog, hvars⟩ := h
  obtain ⟨values, log⟩ := (rollbackTo_spec w.vec v.snapshot.1).2 hlog (startSnapshot_spec v.vec).1
  exact ⟨values.trans hvars, [], log, values.trans hvars⟩

namespace Nest

variable {start l v : UndoLog V} {n : Nest V} {rest : List (UndoLog V)}

/-- Where calls lead from `start`. Of the open snapshots only the innermost is undone or
committed. -/
inductive Reached (start : UndoLog V) : Nest V → Prop where
  | start : Reached start { log := start }
  | snapshot {n : Nest V} (h : Reached start n) : Reached
    start ⟨n.log.snapshot.2, n.log :: n.opened⟩
  | undoTo {l v : UndoLog V} {rest : List (UndoLog V)} (h : Reached start ⟨l, v :: rest⟩) :
    Reached start ⟨l.undoTo v.snapshot.1, rest⟩
  | commit {l v : UndoLog V} {rest : List (UndoLog V)}
    (h : Reached start ⟨l, v :: rest⟩) : Reached start ⟨l.commit, rest⟩
  | fresh {n : Nest V} (h : Reached start n) (origin : τ) (level : Nat) (c : Constraint τ) :
    Reached start { n with log := (n.log.fresh origin level c).2 }
  | update {n : Nest V} (h : Reached start n) (v : VarId) (f : VarInfo τ → VarInfo τ) :
    Reached start { n with log := n.log.update v f }
  | suspend {n : Nest V} (h : Reached start n) (v : VarId) :
    Reached start { n with log := n.log.suspend v }
  | resume {n : Nest V} (h : Reached start n) (v : VarId) :
    Reached start { n with log := n.log.resume v }
  | lock {n : Nest V} (h : Reached start n) : Reached start { n with log := n.log.lock }
  | unlock {n : Nest V} (h : Reached start n) : Reached start { n with log := n.log.unlock }

/-- Each log can be taken back to those that were found before it. -/
structure Undoable (start : UndoLog V) (n : Nest V) : Prop where
  count : n.log.openSnapshots = start.openSnapshots + n.opened.length
  regains : (n.log :: n.opened).Pairwise UndoLog.Regains

namespace Undoable

theorem inSnapshot (h : n.Undoable start) : n.log.inSnapshot = true ↔
    start.inSnapshot = true ∨ n.opened ≠ [] := by
  simp only [UndoLog.inSnapshot, decide_eq_true_eq, h.count, ← List.length_pos_iff]
  omega

/-- A log can be replaced by one that goes back to it, or to what was found before it. -/
theorem replace (h : n.Undoable start) (count : l.openSnapshots = n.log.openSnapshots)
    (regains : ∀ u ∈ n.opened, n.log.Regains u → l.Regains u) :
    Undoable start { n with log := l } := by
  obtain ⟨first, others⟩ := List.pairwise_cons.1 h.regains
  exact ⟨count.trans h.count, List.pairwise_cons.2
    ⟨fun u mem => regains u mem (first u mem), others⟩⟩

/-- Inside a snapshot a write is recorded, and outside there is none that would take it back. -/
theorem write (h : n.Undoable start) (recorded : n.log.inSnapshot = true → n.log.Extends l)
    (count : l.openSnapshots = n.log.openSnapshots) : Undoable start { n with log := l } :=
  h.replace count fun _ mem first =>
    (recorded (h.inSnapshot.2 (.inr (List.ne_nil_of_mem mem)))).writes.trans first

theorem update (h : n.Undoable start) (v : VarId) (f : VarInfo τ → VarInfo τ) :
    Undoable start { n with log := n.log.update v f } :=
  h.write (fun inside => UndoLog.extends_update inside v f) (UndoLog.update_openSnapshots _ v f)

theorem snapshot (h : n.Undoable start) : Undoable start ⟨n.log.snapshot.2, n.log :: n.opened⟩ := by
  obtain ⟨-, values, -, log⟩ := startSnapshot_spec n.log.vec
  have back : n.log.snapshot.2.Regains n.log := ⟨[], log, values⟩
  have first := (List.pairwise_cons.1 h.regains).1
  exact ⟨congrArg (· + 1) h.count, List.pairwise_cons.2
    ⟨List.forall_mem_cons.2 ⟨back, fun u mem => back.trans (first u mem)⟩, h.regains⟩⟩

theorem undoTo (h : Undoable start ⟨l, v :: rest⟩) :
    Undoable start ⟨l.undoTo v.snapshot.1, rest⟩ := by
  obtain ⟨first, others⟩ := List.pairwise_cons.1 h.regains
  obtain ⟨-, back⟩ := (first v List.mem_cons_self).undoTo
  obtain ⟨outer, rest⟩ := List.pairwise_cons.1 others
  exact ⟨congrArg (· - 1) h.count, List.pairwise_cons.2
    ⟨fun u mem => back.trans (outer u mem), rest⟩⟩

/-- The log is given up only with the outermost snapshot, and then there is nothing to undo. -/
theorem commit (h : Undoable start ⟨l, v :: rest⟩) : Undoable start ⟨l.commit, rest⟩ := by
  have count : l.openSnapshots = start.openSnapshots + (rest.length + 1) := h.count
  obtain ⟨first, others⟩ := List.pairwise_cons.1 h.regains
  refine ⟨congrArg (· - 1) h.count, List.pairwise_cons.2 ⟨fun u mem => ?_, others.of_cons⟩⟩
  have outer : 0 < rest.length := List.length_pos_of_mem mem
  exact UndoLog.regains_commit (by omega) (first u (List.mem_cons_of_mem _ mem))

end Undoable

theorem Reached.undoable (h : Reached start n) : n.Undoable start := by
  induction h with
  | start => exact ⟨rfl, List.pairwise_singleton ..⟩
  | snapshot _ ih => exact ih.snapshot
  | undoTo _ ih => exact ih.undoTo
  | commit _ ih => exact ih.commit
  | fresh _ origin level c ih =>
    exact ih.write (fun inside => UndoLog.extends_fresh inside origin level c) rfl
  | update _ v f ih => exact ih.update v f
  | suspend _ v ih | resume _ v ih => exact ih.update v _
  | lock _ ih | unlock _ ih => exact ih.replace rfl fun _ _ first => first

/-- Undoing an open snapshot gives back the variables that it found and leaves the locks alone.
Committing the innermost changes no variable, and those around it can still be undone. A new
variable has the next number, and a log is in a snapshot while one is open. -/
theorem open_snapshots_can_be_undone (h : Reached start n) :
    (∀ v ∈ n.opened, (n.log.undoTo v.snapshot.1).vars = v.vars ∧
      (n.log.undoTo v.snapshot.1).locks = n.log.locks) ∧ n.log.commit.vars = n.log.vars ∧
    (∀ v ∈ n.opened.tail, (n.log.commit.undoTo v.snapshot.1).vars = v.vars) ∧
    (∀ origin level c, (n.log.fresh origin level c).1 = ⟨n.log.vars.size⟩ ∧
      (n.log.fresh origin level c).2.vars = n.log.vars.push { origin, level, constraint := c }) ∧
    (n.log.inSnapshot = true ↔ start.inSnapshot = true ∨ n.opened ≠ []) := by
  have undone : ∀ {n : Nest V}, n.Undoable start →
    ∀ v ∈ n.opened, (n.log.undoTo v.snapshot.1).vars = v.vars :=
    fun h v mem => ((List.pairwise_cons.1 h.regains).1 v mem).undoTo.1
  refine ⟨fun v mem => ⟨undone h.undoable v mem, rfl⟩,
    (commit_spec n.log.vec).1, ?_, fun origin level c =>
    ⟨n.log.fst_fresh origin level c, n.log.vars_fresh origin level c⟩, h.undoable.inSnapshot⟩
  obtain ⟨l, opened⟩ := n
  cases opened with
  | nil => exact nofun
  | cons v rest => exact undone h.undoable.commit

/-- A variable is suspended in an inner snapshot that is committed, and a second one is made;
undoing the outer snapshot takes both back. -/
theorem outer_snapshot_can_be_undone : ∃ n : Nest (LoggedVec (VarInfo Nat)), Reached {} n ∧
    n.log.vars.toList.map (·.suspended) = [true, false] ∧ n.opened.map (·.snapshot.1) = [⟨0⟩] ∧
    (n.log.undoTo ⟨0⟩).vars.toList.map (·.suspended) = [false] := by
  have inside := ((@Reached.start (LoggedVec (VarInfo Nat)) _ _ _ _ {}).fresh 0 0 {}).snapshot
  have after := (inside.snapshot.suspend ⟨0⟩).commit.fresh 1 0 {}
  have undone := ((open_snapshots_can_be_undone after).1 _ List.mem_cons_self).1
  exact ⟨_, after, by decide, by decide, (congrArg (·.toList.map (·.suspended)) undone).trans
    (by decide)⟩

end Nest

end Conformance

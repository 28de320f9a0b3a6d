import Conformance.VarLog

/-! # What the undo log takes back

`v.Extends w` says that `w` came from `v` by writes that the log of `w` can take back: the log has
grown at its front, and reverting what is new gives the variables of `v`. Inside a snapshot every
write extends. Undoing a snapshot after any extension gives back the store it was taken from, log
and counters included, and committing one leaves an extension for the snapshots around it. -/

namespace Conformance

open LawfulSnapshotVec

namespace UndoLog

section Writes

variable {V S τ : Type} [SnapshotVec V (VarInfo τ) S] [LawfulSnapshotVec V] {u v w : UndoLog V}

/-- The newest writes of `w` can be taken back to `v`. -/
def Regains (w v : UndoLog V) : Prop :=
  ∃ writes, SnapshotVec.log w.vec = writes ++ SnapshotVec.log v.vec ∧
    writes.foldl Undo.revert w.vars = v.vars

theorem Regains.refl (v : UndoLog V) : v.Regains v := ⟨[], rfl, rfl⟩

theorem Regains.trans (h : w.Regains v) (h' : v.Regains u) : w.Regains u := by
  obtain ⟨us, hlog, hvars⟩ := h
  obtain ⟨us', hlog', hvars'⟩ := h'
  exact ⟨us ++
    us', by rw [hlog, hlog', List.append_assoc], by rw [List.foldl_append, hvars, hvars']⟩

structure Extends (v w : UndoLog V) : Prop where
  writes : w.Regains v
  openSnapshots : w.openSnapshots = v.openSnapshots
  locks : w.locks = v.locks

theorem Extends.refl (v : UndoLog V) : v.Extends v := ⟨.refl v, rfl, rfl⟩

theorem Extends.trans (h : u.Extends v) (h' : v.Extends w) : u.Extends w :=
  ⟨h'.writes.trans h.writes, h'.openSnapshots.trans h.openSnapshots, h'.locks.trans h.locks⟩

theorem Extends.inSnapshot (h : v.Extends w) : w.inSnapshot = v.inSnapshot := by
  rw [UndoLog.inSnapshot, UndoLog.inSnapshot, h.openSnapshots]

theorem opened_pos (hs : v.inSnapshot = true) : 0 < SnapshotVec.opened v.vec := by
  rw [v.counted]
  exact of_decide_eq_true hs

/-! ## What a write does to the variables -/

variable (l : UndoLog V)

theorem fst_fresh (origin : τ) (level : Nat) (c : Constraint τ) :
    (l.fresh origin level c).1 = ⟨l.vars.size⟩ :=
  congrArg VarId.mk (push_spec l.vec _).1

theorem vars_fresh (origin : τ) (level : Nat) (c : Constraint τ) : (l.fresh origin level c).2.vars =
    l.vars.push { origin, level, constraint := c } := (push_spec l.vec _).2.1

theorem update_unknown {l : UndoLog V} {x : VarId}
    (h : l.info? x = none) (f : VarInfo τ → VarInfo τ) : l.update x f = l := by
  have unknown : ¬ l.contains x = true := by
    simpa [contains] using Array.getElem?_eq_none_iff.1 h
  rw [update, dif_neg unknown]

theorem contains_of_info? {l : UndoLog V} {x : VarId}
    {a : VarInfo τ} (h : l.info? x = some a) : l.contains x = true :=
  decide_eq_true (Array.getElem?_eq_some_iff.1 h).1

theorem vars_update {l : UndoLog V} {x : VarId} {old : VarInfo τ} (h : l.info? x = some old)
    (f : VarInfo τ → VarInfo τ) : (l.update x f).vars = l.vars.setIfInBounds x.val (f old) := by
  rw [update, dif_pos (contains_of_info? h)]
  obtain ⟨there, rfl⟩ := Array.getElem?_eq_some_iff.1 h
  exact (update_spec l.vec there f).1

@[simp] theorem update_locks (x : VarId) (f : VarInfo τ → VarInfo τ) :
    (l.update x f).locks = l.locks := by
  unfold update
  split <;> rfl

@[simp] theorem update_openSnapshots (x : VarId) (f : VarInfo τ → VarInfo τ) :
    (l.update x f).openSnapshots = l.openSnapshots := by
  unfold update
  split <;> rfl

theorem getElem?_update (x : VarId) (f : VarInfo τ → VarInfo τ) (i : Nat) :
    (l.update x f).vars[i]? = if x.val = i then l.vars[i]?.map f else l.vars[i]? := by
  cases h : l.info? x with
  | none =>
    rw [update_unknown h]
    split
    next same => rw [← same, show l.vars[x.val]? = none from h, Option.map_none]
    next => rfl
  | some old =>
    rw [vars_update h, Array.getElem?_setIfInBounds]
    split
    next same =>
      rw [← same, show l.vars[x.val]? = some old from h,
        if_pos (Array.getElem?_eq_some_iff.1 h).1, Option.map_some]
    next => rfl

variable {l} {x : VarId} {a : VarInfo τ}

theorem info?_update_self (h : l.info? x = some a)
    (f : VarInfo τ → VarInfo τ) : (l.update x f).info? x = some (f a) :=
  (getElem?_update ..).trans ((if_pos rfl).trans (congrArg (·.map f) h))

theorem info?_update_of_ne (l : UndoLog V) {x y : VarId} (h : y ≠ x) (f : VarInfo τ → VarInfo τ) :
    (l.update y f).info? x = l.info? x :=
  (getElem?_update ..).trans (if_neg fun same => h (congrArg VarId.mk same))

theorem info?_fresh (h : l.info? x = some a) (origin : τ) (level : Nat) (c : Constraint τ) :
    (l.fresh origin level c).1 ≠ x ∧ (l.fresh origin level c).2.info? x = some a := by
  obtain ⟨lt, -⟩ := Array.getElem?_eq_some_iff.1 h
  have hne : x.val ≠ l.vars.size := Nat.ne_of_lt lt
  refine ⟨fun e => hne (congrArg VarId.val (e.symm.trans (fst_fresh ..))), ?_⟩
  rwa [info?, vars_fresh, Array.getElem?_push, if_neg hne]

/-! ## Writes inside a snapshot -/

theorem extends_fresh (hs : v.inSnapshot = true) (origin : τ) (level : Nat) (c : Constraint τ) :
    v.Extends (v.fresh origin level c).2 := by
  refine ⟨⟨[.added], (push_spec v.vec _).2.2.2 (opened_pos hs), ?_⟩, rfl, rfl⟩
  rw [vars_fresh]
  exact Array.pop_push

theorem extends_update (hs : v.inSnapshot = true) (x : VarId)
    (f : VarInfo τ → VarInfo τ) : v.Extends (v.update x f) := by
  cases h : v.info? x with
  | none =>
    rw [update_unknown h]
    exact .refl v
  | some old =>
    refine ⟨⟨[.changed x.val old], ?_, ?_⟩, update_openSnapshots v x f, update_locks v x f⟩
    · rw [update, dif_pos (contains_of_info? h)]
      obtain ⟨there, rfl⟩ := Array.getElem?_eq_some_iff.1 h
      exact (update_spec v.vec there f).2.2 (opened_pos hs)
    · rw [vars_update h]
      apply Array.ext_getElem?
      intro i
      obtain ⟨there, rfl⟩ := Array.getElem?_eq_some_iff.1 h
      by_cases hi : x.val = i
      · subst hi
        simp [Undo.revert, there]
      · simp [Undo.revert, hi]

theorem eq_of_vec (vec : v.vec = w.vec) (locks : v.locks = w.locks) : v = w := by
  obtain ⟨_, _, _, rfl⟩ := v
  obtain ⟨_, _, _, rfl⟩ := w
  cases vec
  cases locks
  rfl

/-- The store inside a new snapshot, whose owner holds the lock. -/
def opened (v : UndoLog V) : UndoLog V := v.lock.snapshot.2

@[simp] theorem opened_vars (v : UndoLog V) : v.opened.vars = v.vars :=
    (startSnapshot_spec v.vec).2.1

theorem opened_inSnapshot (v : UndoLog V) : v.opened.inSnapshot = true := by
  simp [opened, snapshot, lock, inSnapshot]

@[simp] theorem commit_unlock_vars (v : UndoLog V) : v.commit.unlock.vars = v.vars :=
    (commit_spec v.vec).1

/-- The snapshots around a committed one can still take its writes back. -/
theorem regains_commit (more : 1 < w.openSnapshots) (h : w.Regains v) : w.commit.Regains v := by
  obtain ⟨writes, hlog, hvars⟩ := h
  have kept : w.commit.vars = w.vars := (commit_spec w.vec).1
  exact ⟨writes, ((commit_spec w.vec).2.2 (w.counted ▸ more)).trans hlog, by rw [kept, hvars]⟩

theorem extends_commit_unlock (hs : v.inSnapshot = true)
    (h : v.opened.Extends w) : v.Extends w.commit.unlock := by
  have inside : w.openSnapshots = v.openSnapshots + 1 := h.openSnapshots
  have outside : 0 < v.openSnapshots := of_decide_eq_true hs
  obtain ⟨writes, hlog, hvars⟩ : w.commit.Regains v.opened := regains_commit (by omega) h.writes
  have start := startSnapshot_spec v.vec
  refine ⟨⟨writes, hlog.trans (congrArg _ start.2.2.2), hvars.trans start.2.1⟩,
    congrArg (· - 1) h.openSnapshots, congrArg (· - 1) h.locks⟩

end Writes

end UndoLog

/-! ## The log of a checker -/

namespace UndoLog

variable {τ : Type} {v w : VarLog τ}

theorem undoTo_unlock (h : v.opened.Extends w) : (w.undoTo v.lock.snapshot.1).unlock = v := by
  obtain ⟨writes, hlog, hvars⟩ := h.writes
  obtain ⟨closed, taken⟩ := rollbackTo_spec w.vec v.lock.snapshot.1
  obtain ⟨values, log⟩ := taken hlog rfl
  refine UndoLog.eq_of_vec (LoggedVec.ext (values.trans hvars) log (closed.trans ?_))
    (congrArg (· - 1) h.locks)
  rw [w.counted, h.openSnapshots]
  exact v.counted.symm

theorem commit_unlock_opened (hs : v.inSnapshot = true) : v.opened.commit.unlock = v := by
  obtain ⟨values, closed, log⟩ := commit_spec v.opened.vec
  refine UndoLog.eq_of_vec (LoggedVec.ext values (log ?_) closed) rfl
  exact Nat.succ_lt_succ (UndoLog.opened_pos hs)

end UndoLog

end Conformance

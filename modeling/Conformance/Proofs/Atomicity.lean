import Conformance.Proofs.Lockstep
import Conformance.Proofs.UndoLog

/-! # A query that does not answer `true` changes no variable

Within a snapshot every rule extends the store of variables, by the walk through the cascade. So a
query, which is a snapshot around a rule, gives the store back as it was when it answers `false` or
fails, at any nesting of queries and whatever inner queries were kept. -/

namespace Conformance

variable {s : CheckState} {x : CheckM Bool}

namespace CheckM

variable {α : Type}

/-- Writes made within a snapshot can be taken back. -/
def Undoes (s s' : CheckState) : Prop := s.vars.inSnapshot = true → s.vars.Extends s'.vars

theorem Undoes.of_vars_eq {s' : CheckState} (h : s'.vars = s.vars) : Undoes s s' :=
  fun _ => h ▸ .refl _

theorem Undoes.trans {s1 s2 s3 : CheckState} (h : Undoes s1 s2)
    (h' : Undoes s2 s3) : Undoes s1 s3 :=
  fun hs => (h hs).trans (h' ((h hs).inSnapshot.trans hs))

/-- Unless the computation answers `true`, it ends with the variables it began with. -/
def Atomic (x : CheckM Bool) : Prop :=
  ∀ s, x.answer? s ≠ some true → (x.after s).vars = s.vars

/-- The state inside a new snapshot. -/
def opened (s : CheckState) : CheckState := { s with vars := s.vars.opened }

/-- `s'`, with the snapshot undone that `opened s` stands in. -/
def undone (s s' : CheckState) : CheckState :=
  { s' with vars := (s'.vars.undoTo s.vars.lock.snapshot.1).unlock }

theorem probe_run (x : CheckM Bool) (s : CheckState) : probe x s = match x (opened s) with
    | .ok true s' => .ok true { s' with vars := s'.vars.commit.unlock }
    | .ok false s' => .ok false (undone s s')
    | .error e s' => .error e (undone s s') := rfl

/-- A query with an answer was refused, or its answer is that of its rule. -/
theorem query_ok {enter : Guard.Entering} {op : Relation} {depth : Option Nat}
    {s' : CheckState} {b : Bool} (run : reported op depth (guarded enter x) s = .ok b s') :
    ((enter s.guard).1 = .cycle ∨ (enter s.guard).1 = .tooDeep) ∧ b = false ∧
        s' = answered op s false (admitted enter op depth s) ∨
      ∃ entry s1, (enter s.guard).1 = .entered entry ∧
        x (opened (admitted enter op depth s)) = .ok b s1 ∧
        s' = answered op s b (left entry <| if b then { s1 with vars := s1.vars.commit.unlock }
          else undone (admitted enter op depth s) s1) := by
  rw [query_run] at run
  generalize (enter s.guard).1 = r at run ⊢
  cases r with
  | cycle | tooDeep =>
    cases run
    exact .inl ⟨by simp, rfl, rfl⟩
  | entered entry =>
    simp only [probe_run] at run
    cases rule : x (opened (admitted enter op depth s)) with
    | error e s1 =>
      rw [rule] at run
      cases run
    | ok a s1 =>
      rw [rule] at run
      cases a <;> cases run <;> exact .inr ⟨entry, s1, rfl, rfl, rfl⟩

/-- A query sees what its rule does to the declarations that it starts from. -/
theorem query_congr {enter : Guard.Entering} {op : Relation} {depth : Option Nat}
    {y : CheckM Bool} (h : ∀ s', s'.table = s.table → x s' = y s') :
    reported op depth (guarded enter x) s = reported op depth (guarded enter y) s := by
  have inner : probe x (admitted enter op depth s) = probe y (admitted enter op depth s) := by
    rw [probe_run, probe_run, h (opened (admitted enter op depth s)) (admitted_table ..)]
  rw [query_run, query_run, inner]

theorem extends_of_opened {x : CheckM α} (hx : Keeps Undoes x) (s : CheckState) :
    s.vars.opened.Extends (x.after (opened s)).vars := hx (opened s) s.vars.opened_inSnapshot

theorem undone_vars {x : CheckM α} (hx : Keeps Undoes x) (s : CheckState) :
    (undone s (x.after (opened s))).vars = s.vars := UndoLog.undoTo_unlock (extends_of_opened hx s)

theorem after_speculate (x : CheckM α) (s : CheckState) :
    (speculate x).after s = undone s (x.after (opened s)) := after_ending x (undone s) (opened s)

theorem different_vars {q : Queries} {l r : Ty} (hq : Keeps Undoes (q.same l r)) (s : CheckState) :
    ((q.different l r).after s).vars = s.vars := by
  have back := undone_vars hq s
  rw [← after_speculate] at back
  cases h : speculate (q.same l r) s with
  | ok b s' =>
    rw [after_ok h] at back
    rw [after, Queries.different, bind_ok h]
    exact back
  | error e s' =>
    rw [after_error h] at back
    rwa [after, Queries.different, bind_error h]

/-- The end of a probe: either it kept what was done within it, or the variables are back. -/
theorem probe_cases (hx : Keeps Undoes x) (s : CheckState) : (∃ s', x (opened s) = .ok true s' ∧
    probe x s = .ok true { s' with vars := s'.vars.commit.unlock }) ∨
      ((probe x).answer? s ≠ some true ∧ ((probe x).after s).vars = s.vars) := by
  have back := undone_vars hx s
  have run := probe_run x s
  cases h : x (opened s) with
  | ok b s' =>
    rw [after_ok h] at back
    rw [h] at run
    cases b with
    | true => exact .inl ⟨s', rfl, run⟩
    | false =>
      rw [answer?_ok run, after_ok run]
      exact .inr ⟨by simp, back⟩
  | error e s' =>
    rw [after_error h] at back
    rw [h] at run
    rw [answer?_error run, after_error run]
    exact .inr ⟨by simp, back⟩

theorem probe_atomic (hx : Keeps Undoes x) : Atomic (probe x) := by
  intro s hs
  obtain ⟨s', -, run⟩ | ⟨-, back⟩ := probe_cases hx s
  · exact absurd (answer?_ok run) hs
  · exact back

theorem probe_undoes (hx : Keeps Undoes x) : Keeps Undoes (probe x) := by
  intro s hs
  obtain ⟨s', h, run⟩ | ⟨-, back⟩ := probe_cases hx s
  · have ext := extends_of_opened hx s
    rw [after_ok h] at ext
    rw [after_ok run]
    exact UndoLog.extends_commit_unlock hs ext
  · exact Undoes.of_vars_eq back hs

theorem after_onTable_vars (x : SymM α) (s : CheckState) : ((onTable x).after s).vars = s.vars := by
  unfold after onTable
  cases EStateM.run x s.table <;> rfl

theorem undoes_lockstep : Lockstep fun x _ => Keeps Undoes x where
  toSequenced := Keeps.sequenced (fun _ => .of_vars_eq rfl) Undoes.trans
  exhausted _ := .of_vars_eq rfl
  onTable {_ x} _ s := .of_vars_eq (after_onTable_vars x s)
  anyTable x s := .of_vars_eq (after_onTable_vars x s)
  readVars _ := .of_vars_eq rfl
  addBound v f _ s hs := UndoLog.extends_update hs v f
  freshVar origin c s hs := UndoLog.extends_fresh hs origin s.skolems.depth c
  atDeeperLevel {_ x _} hx s := by
    have run := hx s.skolems.enter.2.depth { s with skolems := s.skolems.enter.2 }
    rw [after_atDeeperLevel]
    cases s.skolems.enter.1 <;> exact run
  speculate hx s := .of_vars_eq (by rw [after_speculate]; exact undone_vars hx s)

/-- What a query does to the variables is what its probe does, or nothing if the guard refuses
it. -/
theorem query_vars {R : Option Bool → VarLog Ty → VarLog Ty → Prop}
    (refused : ∀ v, R (some false) v v) (hx : ∀ s, R ((probe x).answer? s)
    s.vars ((probe x).after s).vars) (enter : Guard.Entering) (op : Relation) (depth : Option Nat)
    (s : CheckState) : R ((reported op depth (guarded enter x)).answer? s) s.vars
      ((reported op depth (guarded enter x)).after s).vars := by
  have within := hx (admitted enter op depth s)
  rw [admitted_vars] at within
  rw [after, answer?, query_run]
  cases (enter s.guard).1 with
  | entered entry =>
    cases h : probe x (admitted enter op depth s) with
    | ok b s' =>
      rw [answer?_ok h, after_ok h] at within
      simp only [answered_vars]
      exact within
    | error e s' =>
      rw [answer?_error h, after_error h] at within
      exact within
  | cycle | tooDeep =>
    rw [answered_vars, admitted_vars]
    exact refused _

section Query

variable {x : CheckM Bool} (hx : Keeps Undoes x)
  (enter : Guard.Entering) (op : Relation) (depth : Option Nat)
include hx

theorem query_atomic : Atomic (reported op depth (guarded enter x)) :=
  query_vars (R := fun answer v w => answer ≠ some true → w = v)
    (fun _ _ => rfl) (probe_atomic hx) enter op depth

theorem query_undoes : Keeps Undoes (reported op depth (guarded enter x)) :=
  query_vars (R := fun _ v w => v.inSnapshot = true → v.Extends w)
    (fun v _ => .refl v) (probe_undoes hx) enter op depth

end Query

theorem updateVar_undoes (v : VarId) (f : VarInfo Ty → VarInfo Ty) : Keeps Undoes (updateVar v f) :=
  fun _ hs => UndoLog.extends_update hs v f

section Steps

variable (cfg : Config) {q : Queries} (hq : Queries.InStep (fun x _ => Keeps Undoes x) q q)
  (l r : Ty)
include hq

theorem subStep_undoes (depth : Depth) : Keeps Undoes (subStep cfg q l r depth) :=
  undoes_lockstep.subStep hq (undoes_lockstep.solveOne_of_writes hq updateVar_undoes) l r depth

theorem sameStep_undoes : Keeps Undoes (sameStep cfg q l r) :=
  undoes_lockstep.sameStep hq (undoes_lockstep.equality_of_writes hq updateVar_undoes) l r

end Steps

end CheckM

/-- Each query is a transaction on the variables. -/
structure Queries.Transactional (q : Queries) : Prop where
  undoes : Queries.InStep (fun x _ => CheckM.Keeps CheckM.Undoes x) q q
  sub_atomic (l r : Ty) (depth : Depth) : CheckM.Atomic (q.sub l r depth)
  same_atomic (l r : Ty) : CheckM.Atomic (q.same l r)

namespace Config

open CheckM

variable (cfg : Config)

theorem queriesUpTo_transactional (n : Nat) : (cfg.queriesUpTo n).Transactional := by
  induction n with
  | zero =>
    have none : Keeps Undoes (pure false : CheckM Bool) := fun _ => .of_vars_eq rfl
    exact ⟨⟨fun l r d => query_undoes none _ _ _, fun l r => query_undoes none _ _ _⟩,
      fun l r d => query_atomic none _ _ _, fun l r => query_atomic none _ _ _⟩
  | succ n ih =>
    have sub := subStep_undoes cfg ih.undoes
    have same := sameStep_undoes cfg ih.undoes
    exact ⟨⟨fun l r d => query_undoes (sub l r d) _ _ _, fun l r => query_undoes (same l r) _ _ _⟩,
      fun l r d => query_atomic (sub l r d) _ _ _, fun l r => query_atomic (same l r) _ _ _⟩

/-- A query that answers `false` or fails gives the whole store of variables back, and a test for
inequivalence always does. -/
theorem failed_query_restores_variables (l r : Ty) (s : CheckState) :
    (∀ depth, (cfg.isSubtypeDepth l r depth).answer? s ≠ some true →
      ((cfg.isSubtypeDepth l r depth).after s).vars = s.vars) ∧
    ((cfg.isSameType l r).answer? s ≠ some true → ((cfg.isSameType l r).after s).vars = s.vars) ∧
    ((cfg.isDifferentType l r).after s).vars = s.vars := by
  have q := cfg.queriesUpTo_transactional (levelsLeft s)
  exact ⟨fun depth => q.sub_atomic l r depth s, q.same_atomic l r s,
    different_vars (q.undoes.same l r) s⟩

/-- The first of two components instantiates the variable, the second fails. -/
theorem failed_bounds_restore_variables :
    let cfg : Config := ⟨{}, .typeConstraints, 2⟩
    let s : CheckState := { CheckState.fresh {} .initial 0 #[] with
      vars := { openSnapshots := 1, vec :=
        { values := #[{ origin := Known.anyType, level := 0 }], opened := 1 } } }
    let first := cfg.isSameType (.var ⟨0⟩) (.const .null)
    let both := cfg.isSameType (.bounds (.var ⟨0⟩) (.const .unit))
      (.bounds (.const .null) (.const .null))
    (first.after s).vars ≠ s.vars ∧ both.answer? s ≠ some true ∧ (both.after s).vars = s.vars := by
  intro cfg s first both
  have failed : both.answer? s ≠ some true := by decide +kernel
  exact ⟨by decide +kernel, failed, (cfg.failed_query_restores_variables _ _ s).2.1 failed⟩

end Config

end Conformance

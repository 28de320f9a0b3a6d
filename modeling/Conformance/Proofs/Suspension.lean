import Conformance.Proofs.Growth
import Conformance.Proofs.Session

/-! # What an operation does to a variable that was there before

Whatever the outcome, bounds are appended, an instantiation stays, and origin, level and flag are as
they were. A suspended variable is left alone altogether: the rules that register something look at
its flag first, and the variables that they solve for are of their own making. Only solving on
demand may write to a suspended variable. -/

namespace Conformance

variable {s : CheckState}

/-- Does the operation solve for variables that it is given? -/
def Operation.solves : Operation → Bool
  | .solve .. => true
  | _ => false

namespace CheckM

variable {α β : Type} {v : VarId} {a : VarInfo Ty} {x : CheckM α}

/-- The variable is left as it is if just `a` is known of it. -/
def Unmoved (v : VarId) (a : VarInfo Ty) (s s' : CheckState) : Prop :=
  s.vars.info? v = some a → s'.vars.info? v = some a

/-- As `Unmoved`, and what is done to other variables within a snapshot can be taken back. -/
structure Rests (v : VarId) (a : VarInfo Ty) (s s' : CheckState) : Prop where
  undoes : Undoes s s'
  unmoved : Unmoved v a s s'

theorem Rests.of_vars_eq {s' : CheckState} (h : s'.vars = s.vars) : Rests v a s s' :=
  ⟨.of_vars_eq h, fun hs => h ▸ hs⟩

theorem Rests.trans {s1 s2 s3 : CheckState} (h : Rests v a s1 s2)
    (h' : Rests v a s2 s3) : Rests v a s1 s3 :=
  ⟨h.undoes.trans h'.undoes, fun hs => h'.unmoved (h.unmoved hs)⟩

theorem Keeps.rests (hu : Keeps Undoes x) (hx : Keeps (Unmoved v a) x) : Keeps (Rests v a) x :=
  fun s => ⟨hu s, hx s⟩

theorem Keeps.unmoved (hx : Keeps (Rests v a) x) : Keeps (Unmoved v a) x := fun s => (hx s).unmoved

theorem rests_stepwise (v : VarId) (a : VarInfo Ty) : Stepwise fun x _ => Keeps (Rests v a) x where
  toSequenced := Keeps.sequenced (fun _ => .of_vars_eq rfl) Rests.trans
  exhausted s := .of_vars_eq rfl
  onTable {_ x} _ s := .of_vars_eq (after_onTable_vars x s)
  readVars _ := .of_vars_eq rfl
  freshVar origin c s := ⟨undoes_lockstep.freshVar origin c s, fun hs =>
    (UndoLog.info?_fresh hs origin _ c).2⟩
  atDeeperLevel {_ x _} hx s := by
    have run := hx s.skolems.enter.2.depth { s with skolems := s.skolems.enter.2 }
    rw [after_atDeeperLevel]
    cases s.skolems.enter.1 <;> exact ⟨run.undoes, run.unmoved⟩
  speculate {_ x _} hx s := by
    refine .of_vars_eq ?_
    rw [after_speculate]
    exact undone_vars (fun s => (hx s).undoes) s

theorem query_rests {x : CheckM Bool} (hx : Keeps (Rests v a) x)
    (enter : Guard.Entering) (op : Relation) (depth : Option Nat) :
    Keeps (Rests v a) (reported op depth (guarded enter x)) := by
  have hu : Keeps Undoes x := fun s => (hx s).undoes
  refine Keeps.rests (query_undoes hu enter op depth) ?_
  refine query_vars (R := fun _ l l' => l.info? v = some a → l'.info? v = some a)
    (fun _ h => h) (fun s hs => ?_) enter op depth
  obtain ⟨s', h, run⟩ | ⟨-, back⟩ := probe_cases hu s
  · have unmoved := (hx (opened s)).unmoved hs
    rw [after_ok h] at unmoved
    rw [after_ok run]
    exact unmoved
  · rw [back]
    exact hs

/-- Sequencing, where the value of the first computation matters to the second. -/
theorem unmoved_bind {f : α → CheckM β} (Q : α → Prop) (hx : Keeps (Unmoved v a) x)
    (hQ : ∀ s b s', s.vars.info? v = some a → x s = .ok b s' → Q b)
    (hf : ∀ b, Q b → Keeps (Unmoved v a) (f b)) : Keeps (Unmoved v a) (x >>= f) := by
  intro s hs
  have first := hx s hs
  cases h : x s with
  | ok b s' =>
    rw [after_ok h] at first
    rw [after, bind_ok h]
    exact hf b (hQ s b s' hs h) s' first
  | error e s' =>
    rw [after_error h] at first
    rwa [after, bind_error h]

theorem unmoved_seq {f : α → CheckM β} (hx : Keeps (Unmoved v a) x)
    (hf : ∀ b, Keeps (Unmoved v a) (f b)) : Keeps (Unmoved v a) (x >>= f) :=
  unmoved_bind (fun _ => True) hx (fun _ _ _ _ _ => trivial) fun b _ => hf b

theorem updateVar_rests {w : VarId} (h : w ≠ v) (f : VarInfo Ty → VarInfo Ty) :
    Keeps (Rests v a) (updateVar w f) :=
  Keeps.rests (updateVar_undoes w f) fun s hs => (s.vars.info?_update_of_ne h f).trans hs

section Suspended

variable {cfg : Config} {q : Queries} {s : CheckState}
  (hs : s.vars.info? v = some a) (flag : a.suspended = true)
include hs flag

theorem registerEquality_suspended (ty : Ty) (onLeft : Bool) :
    registerEquality q v ty onLeft s = q.same ty a.origin s := by
  rw [registerEquality, varInfo?_run, hs]
  simp only [flag, if_true]

end Suspended

section Rules

variable {cfg : Config} {q : Queries} (hq : Queries.InStep (fun x _ => Keeps (Rests v a) x) q q)
include hq

theorem undoes_of_rests : Queries.InStep (fun x _ => Keeps Undoes x) q q :=
  ⟨fun l r d s => (hq.sub l r d s).undoes, fun l r s => (hq.same l r s).undoes⟩

theorem registerBound_rests (flag : a.suspended = true) (side : Side) (w : VarId) (ty : Ty) :
    Keeps (Rests v a) (registerBound cfg q side w ty) := by
  by_cases hw : w = v
  · subst hw
    refine Keeps.rests (undoes_lockstep.registerBound (undoes_of_rests hq) side w ty) fun s hs => ?_
    -- a suspended variable is compared through its origin
    rw [after, registerBound, varInfo?_run, hs]
    simp only [flag, if_true]
    exact (hq.checkAgainst side ty a.origin s).unmoved hs
  · exact (rests_stepwise v a).bound_of_write hq (fun b => updateVar_rests hw _) ty

theorem registerEquality_rests (flag : a.suspended = true) (w : VarId) (ty : Ty) (onLeft : Bool) :
    Keeps (Rests v a) (registerEquality q w ty onLeft) := by
  by_cases hw : w = v
  · subst hw
    refine Keeps.rests (undoes_lockstep.equality_of_writes
      (undoes_of_rests hq) updateVar_undoes w ty onLeft) fun s hs => ?_
    rw [after, registerEquality_suspended hs flag]
    exact (hq.same ty a.origin s).unmoved hs
  · exact (rests_stepwise v a).equality_of_write hq (updateVar_rests hw) ty onLeft

theorem solve_rests {tvars : List Ty} (hne : .var v ∉ tvars)
    (tparams : List SymbolId) (variances : List Variance) (upper : Bool)
    (depth : Depth) : Keeps (Rests v a) (solve cfg q tvars tparams variances upper depth).run := by
  refine (rests_stepwise v a).solve_of_group hq _ _ _ _ fun g n progress u hg hu => ?_
  have others : ∀ w ∈ g.unknowns, w.var ≠ v := fun w hw e => hne (e ▸ hg w hw)
  exact (rests_stepwise v a).solveOne_of_group hq (fun w hw f => updateVar_rests hw f)
    others _ n progress u (others u.1 hu)

omit hq in
/-- Variables that are made are none of those that there are. -/
theorem not_mem_of_freshVars {fresh : List SymbolId}
    {s' : CheckState} {tvars : List Ty} (hs : s.vars.info? v = some a)
    (h : (fresh.mapM fun p => do freshVar ((← readTable).typeConstructor p) {} : CheckM (List Ty))
    s = .ok tvars s') :
    .var v ∉ tvars := by
  induction fresh generalizing s tvars with
  | nil =>
    rw [List.mapM_nil] at h
    cases h
    simp
  | cons p ps ih =>
    rw [List.mapM_cons] at h
    obtain ⟨tv, s1, first, rest⟩ := exists_of_bind h
    obtain ⟨tvs, s2, others, last⟩ := exists_of_bind rest
    cases first
    cases last
    have made := UndoLog.info?_fresh hs (s.table.typeConstructor p) s.skolems.depth {}
    rw [List.mem_cons, not_or]
    exact ⟨fun e => made.1 (Ty.var.inj e).symm, ih made.2 others⟩

theorem conformsToExistential_rests (ty : Ty) (quantified : List SymbolId) (body : Ty)
    (depth : Depth) : Keeps (Rests v a) (conformsToExistential cfg q ty quantified body depth) := by
  have h := rests_stepwise v a
  have undoes := undoes_of_rests hq
  refine Keeps.rests (undoes_lockstep.conformsToExistential
    undoes (undoes_lockstep.solveOne_of_writes undoes updateVar_undoes) ty quantified body depth) ?_
  have table : ∀ {α : Type} (x : SymM α), Keeps (Unmoved v a) (onTable x) :=
    fun x s hs => (after_onTable_vars x s).symm ▸ hs
  refine unmoved_seq (table _) fun fresh => ?_
  refine unmoved_bind (.var v ∉ ·) (h.freshVars fresh).unmoved
    (fun s tvars s' => not_mem_of_freshVars) fun tvars hne => ?_
  refine unmoved_seq (table _) fun _ => unmoved_seq (table _) fun body => ?_
  refine unmoved_seq (hq.sub _ _ _).unmoved fun b => ?_
  cases b with
  | false => exact (h.pure _).unmoved
  | true =>
    refine unmoved_seq (solve_rests hq hne _ _ _ _).unmoved fun insts => ?_
    cases insts with
    | ok insts => exact (h.withinBounds hq _ _ _ _).unmoved
    | error e => exact (h.pure _).unmoved

end Rules

end CheckM

namespace Config

open CheckM

variable (cfg : Config)

theorem queriesUpTo_rests (v : VarId) {a : VarInfo Ty} (flag : a.suspended = true) (n : Nat) :
    Queries.InStep (fun x _ => Keeps (Rests v a) x) (cfg.queriesUpTo n) (cfg.queriesUpTo n) := by
  induction n with
  | zero =>
    have none : Keeps (Rests v a) (pure false : CheckM Bool) := fun _ => .of_vars_eq rfl
    exact ⟨fun l r d => query_rests none _ _ _, fun l r => query_rests none _ _ _⟩
  | succ n ih =>
    have h := rests_stepwise v a
    refine ⟨fun l r d => query_rests ?_ _ _ _, fun l r => query_rests ?_ _ _ _⟩
    · exact h.subStep ih (fun _ _ s => .of_vars_eq (after_onTable_vars _ s))
        (conformsToExistential_rests ih) (registerBound_rests ih flag) l r d
    · exact h.sameStep ih (fun _ _ s => .of_vars_eq (after_onTable_vars _ s))
        (registerEquality_rests ih flag) l r

theorem run_grows {op : Operation} (hset : op.setsFlag = false) (s : CheckState) :
    s.vars.Grows ((cfg.run op).after s).vars := by
  by_cases hop : op = .resetStats
  · subst hop
    exact .of_vars_eq rfl
  · have hq := cfg.queriesUpTo_adds (levelsLeft s)
    rw [after, run_eq]
    exact (adds_lockstep.toStepwise.operation cfg hq hop hset
      (fun _ _ _ _ _ _ => adds_lockstep.solve hq (solveOne_adds hq) _ _ _ _ _) s).grows

theorem run_unmoved {op : Operation} (hset : op.setsFlag = false) (hsolve : op.solves = false)
    {v : VarId} {a : VarInfo Ty} (ha : s.vars.info? v = some a) (flag : a.suspended = true) :
    ((cfg.run op).after s).vars.info? v = some a := by
  by_cases hop : op = .resetStats
  · subst hop
    exact ha
  · have hq := cfg.queriesUpTo_rests v flag (levelsLeft s)
    rw [after, run_eq]
    refine ((rests_stepwise v a).operation cfg hq hop hset (fun _ _ _ _ _ e => ?_) s).unmoved ha
    subst e
    cases hsolve

/-- Whatever its outcome, an operation appends to the bounds of a variable that there was, and keeps
its instantiation, its origin, its level and its flag. A suspended variable is left exactly as it
was, unless the operation is asked to solve for variables. -/
theorem operation_only_adds_to_constraints {op : Operation}
    (hset : op.setsFlag = false) {s : CheckState} {v : VarId} {a : VarInfo Ty}
    (ha : s.vars.info? v = some a) : ∃ b, ((cfg.run op).after s).vars.info? v = some b ∧ a.Grows b ∧
      (op.solves = false → a.suspended = true → b = a) := by
  obtain ⟨b, hb, grows⟩ := cfg.run_grows hset s v.val a ha
  refine ⟨b, hb, grows, fun hsolve flag => ?_⟩
  exact Option.some.inj (hb.symm.trans (cfg.run_unmoved hset hsolve ha flag))

/-- Of three pairs the first is compared through the origin of a suspended variable, the second
instantiates a variable and the third fails. -/
theorem failing_list_leaves_suspended_variable :
    let cfg : Config := ⟨{}, .typeConstraints, 2⟩
    let a : VarInfo Ty := { origin := .const .null, level := 0, suspended := true }
    let s : CheckState := { CheckState.fresh {} .initial 0 #[] with
      vars := { vec := { values := #[a, { origin := Known.anyType, level := 0 }] } } }
    let op : Operation := .isSameTypes [.var ⟨0⟩, .var ⟨1⟩, .const .unit]
      [.const .null, .const .null, .const .null]
    op.setsFlag = false ∧ op.solves = false ∧ s.vars.info? ⟨0⟩ = some a ∧ a.suspended = true ∧
      ((cfg.run op).after s).vars.info? ⟨0⟩ = some a ∧ ((cfg.run op).after s).vars ≠ s.vars := by
  intro cfg a s op
  have hset : op.setsFlag = false := rfl
  have known : s.vars.info? ⟨0⟩ = some a := rfl
  obtain ⟨b, hb, -, same⟩ := cfg.operation_only_adds_to_constraints hset known
  exact ⟨hset, rfl, known, rfl, same rfl rfl ▸ hb, by decide +kernel⟩

end Config

end Conformance

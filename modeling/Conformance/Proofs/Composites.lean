import Conformance.Proofs.Backtracking
import Conformance.Proofs.Session
import Conformance.Proofs.SolveLoop

/-! # What a failed operation leaves behind

The operations on lists of types, on bounds and on members ask one question after the other, and
solving writes to its variables as it goes. Only the questions are transactions, so where such an
operation fails, what the questions before registered and what solving wrote stays. The variables
are then as they were before if and only if nothing was registered at all. Solving that is refused
at the outset changes nothing. -/

namespace Conformance

open CheckM

instance decidableEqExcept {ε α : Type} [DecidableEq ε] [DecidableEq α] : DecidableEq (Except ε α)
  | .ok a, .ok b => decidable_of_iff (a = b) ⟨congrArg _, Except.ok.inj⟩
  | .error a, .error b => decidable_of_iff (a = b) ⟨congrArg _, Except.error.inj⟩
  | .ok _, .error _ => isFalse nofun
  | .error _, .ok _ => isFalse nofun

/-! ## Courses -/

/-- A change to the variables by an operation that began with `v0` and solves for `group`. -/
inductive Move (q : Queries) (v0 : VarLog Ty) (group : List Ty) : VarLog Ty → VarLog Ty → Prop
  /-- What a question that held registered. -/
  | held {a : Question} {s s' : CheckState} (answer : q.ask a s = .ok true s') :
    Move q v0 group s.vars s'.vars
  /-- A declared bound of a variable that is solved for. -/
  | bound {x : VarId} {f : VarInfo Ty → VarInfo Ty}
      (mem : .var x ∈ group) (hf : AddsBound f) (l : VarLog Ty) : Move q v0 group l (l.update x f)
  /-- The solution of a variable that was open at first. -/
  | solution {x : VarId} (mem : .var x ∈ group) (first : v0.inst? x = none)
      (ty : Ty) (l : VarLog Ty) : Move q v0 group l
      (l.update x fun info => { info with constraint := info.constraint.setInst ty })

/-- Changes one after the other, with the variables before and after each. -/
inductive Course (q : Queries) (v0 : VarLog Ty) (group : List Ty) :
    VarLog Ty → List (VarLog Ty × VarLog Ty) → VarLog Ty → Prop
  | nil (v : VarLog Ty) : Course q v0 group v [] v
  | cons {u v w : VarLog Ty} {moves : List (VarLog Ty × VarLog Ty)} : Move q v0 group u v →
      Course q v0 group v moves w → Course q v0 group u ((u, v) :: moves) w

variable {q : Queries} {v0 u v w : VarLog Ty} {group : List Ty}
  {moves moves' : List (VarLog Ty × VarLog Ty)}

theorem Course.append (h : Course q v0 group u moves v) (h' : Course q v0 group v moves' w) :
    Course q v0 group u (moves ++ moves') w := by
  induction h with
  | nil => exact h'
  | cons move _ ih => exact .cons move (ih h')

section Growth

variable (adds : Queries.InStep (fun x _ => Keeps Adds x) q q)
include adds

theorem Move.grows (h : Move q v0 group v w) (hv : v0.Grows v) : v0.Grows w := by
  cases h with
  | @held a s s' answer =>
    have step := (Queries.ask_adds adds a s).grows
    rw [after_ok answer] at step
    exact hv.trans step
  | bound mem hf => exact hv.update fun a b _ grows => grows.trans (b.grows_of_addsBound hf)
  | solution mem first ty =>
    refine hv.update fun a b ha grows => grows.setInst ?_ ty
    simpa [UndoLog.inst?, ha] using first

theorem Move.fills (h : Move q v0 group v w) : v.Fills w := by
  cases h with
  | @held a s s' answer =>
    have step := (Queries.ask_adds adds a s).grows
    rw [after_ok answer] at step
    exact step.fills
  | bound mem hf =>
    refine UndoLog.Grows.fills ((UndoLog.Grows.of_vars_eq rfl).update fun a b _ grows => ?_)
    exact grows.trans (b.grows_of_addsBound hf)
  | solution mem first ty => exact v.fills_setInst _ ty

theorem Course.grows (h : Course q v0 group v moves w) (hv : v0.Grows v) : v0.Grows w := by
  induction h with
  | nil => exact hv
  | cons move _ ih => exact ih (move.grows adds hv)

/-- A course that ends where it was at first never was anywhere else. -/
theorem Course.stationary (h : Course q v0 group v moves w) (hv : v0.Grows v)
    (eq : w.vars = v0.vars) : v.vars = v0.vars ∧ ∀ m ∈ moves, m.2.vars = m.1.vars := by
  induction h with
  | nil => exact ⟨eq, fun _ mem => nomatch mem⟩
  | @cons u v w moves move rest ih =>
    obtain ⟨next, others⟩ := ih (move.grows adds hv) eq
    have back : u.vars = v0.vars :=
      hv.eq_of_fills ((move.fills adds).trans (UndoLog.Grows.of_vars_eq next.symm).fills)
    exact ⟨back, List.forall_mem_cons.2 ⟨next.trans back.symm, others⟩⟩

omit adds in
theorem Course.vars_eq_of_still (h : Course q v0 group v moves w)
    (still : ∀ m ∈ moves, m.2.vars = m.1.vars) : w.vars = v.vars := by
  induction h with
  | nil => rfl
  | cons move rest ih =>
    rw [List.forall_mem_cons] at still
    exact (ih still.2).trans still.1

theorem Course.vars_eq_iff (h : Course q v group v moves w) :
    w.vars = v.vars ↔ ∀ m ∈ moves, m.2.vars = m.1.vars :=
  ⟨fun eq => (h.stationary adds (.of_vars_eq rfl) eq).2, h.vars_eq_of_still⟩

end Growth

/-! ## Operations along a course -/

/-- As long as it does not fail, the computation takes the variables along a course. The second side
is there for the walk over the rules only. -/
def Charted (q : Queries) (v0 : VarLog Ty) (group : List Ty) {α : Type} (x _y : CheckM α) : Prop :=
  ∀ s, v0.Grows s.vars → ∀ a s', x s = .ok a s' → ∃ moves, Course q v0 group s.vars moves s'.vars

namespace Charted

variable {α : Type}

theorem of_vars_eq {x : CheckM α} (hx : ∀ s a s', x s = .ok a s' → s'.vars = s.vars) :
    Charted q v0 group x x := by
  intro s _ a s' run
  rw [hx s a s' run]
  exact ⟨[], .nil _⟩

theorem reading (adds : Queries.InStep (fun x _ => Keeps Adds x) q q) :
    Reading (Charted q v0 group) where
  pure a := of_vars_eq fun s b s' run => by cases run; rfl
  bind {_ _ x _ f _} hx hf := by
    intro s hs b s' run
    obtain ⟨a, s1, first, rest⟩ := exists_of_bind run
    obtain ⟨moves, course⟩ := hx s hs a s1 first
    obtain ⟨moves', course'⟩ := hf a s1 (course.grows adds hs) b s' rest
    exact ⟨moves ++ moves', course.append course'⟩
  exhausted := of_vars_eq fun s a s' run => nomatch run
  onTable _ := of_vars_eq fun s a s' run => by
    obtain ⟨t', -, rfl⟩ := exists_of_onTable run
    rfl
  readVars := of_vars_eq fun s a s' run => by cases run; rfl

theorem move {x : CheckM α} (hx : ∀ s a s', x s = .ok a s' → Move q v0 group s.vars s'.vars) :
    Charted q v0 group x x :=
  fun s _ a s' run => ⟨[(s.vars, s'.vars)], .cons (hx s a s' run) (.nil _)⟩

theorem ask (hq : q.Transactional) (a : Question) : Charted q v0 group (q.ask a) (q.ask a) := by
  intro s hs b s' run
  cases b with
  | true => exact ⟨[(s.vars, s'.vars)], .cons (.held run) (.nil _)⟩
  | false =>
    have back := hq.ask_atomic a s
    rw [answer?_ok run, after_ok run] at back
    rw [back (by simp)]
    exact ⟨[], .nil _⟩

theorem queries (hq : q.Transactional) : Queries.InStep (Charted q v0 group) q q :=
  ⟨fun l r depth => ask hq (.sub l r depth), fun l r => ask hq (.same l r)⟩

end Charted

section Solving

variable {cfg : Config} (hq : q.Transactional) (adds : Queries.InStep (fun x _ => Keeps Adds x) q q)
include hq adds

theorem solveOne_charted {g : SolveGroup} (hg : ∀ u ∈ g.unknowns, .var u.var ∈ group)
    (depth : Depth) (n : Nat) (progress : List Progress)
    (u : Unknown × Nat) (hu : u.1 ∈ g.unknowns) : Charted q v0
    group (solveOne cfg q g depth n progress u).run (solveOne cfg q g depth n progress u).run := by
  have h : Reading (Charted q v0 group) := Charted.reading adds
  refine h.solveOne_of_look (Charted.queries hq) (K := (.var · ∈ group)) (O := (v0.inst? · = none))
    -- a variable that is found open was open at first
    (fun {v _ _} hf s hs => hf (s.vars.info? v) hs.fills.open_of_open s hs)
    (fun v mem f hf => .move fun s a s' run => ?_)
      (fun v mem first ty => .move fun s a s' run => ?_) hg depth n progress u
    (hg u.1 hu)
  · cases run
    exact .bound mem hf s.vars
  · cases run
    exact .solution mem first ty s.vars

end Solving

/-! ## Operations -/

namespace Operation

/-- The answer of an operation made of several questions says that it failed. -/
def Failed : (op : Operation) → op.Answer → Prop
  | .isSameTypes .., answer => answer = false
  | .isWithinBounds .., answer => answer = false
  | .specializesSym .., answer => answer = false
  | .solve .., answer => ∃ e, answer = .error e
  | _, _ => False

/-- The variables that the operation solves for. -/
def unknowns : Operation → List Ty
  | .solve tvars .. => tvars
  | _ => []

end Operation

namespace Config

variable (cfg : Config)

/-- An operation made of several questions that fails has taken the variables along a course of
questions that held and, if it solves, of writes to its variables; they are as they were before if
and only if each of these left them alone. Solving that is refused at the outset leaves the state as
it was. Solving that finds a variable in its own instantiation found it open, and solving that finds
an instantiation out of bounds leaves all its variables instantiated. -/
theorem failed_operation_leaves_what_it_registered (s s' : CheckState) :
    (∀ (op : Operation) (answer : op.Answer), cfg.run op s = .ok answer s' → op.Failed answer →
      ∃ moves, Course (cfg.queriesUpTo (levelsLeft s)) s.vars op.unknowns s.vars moves s'.vars ∧
        (s'.vars.vars = s.vars.vars ↔ ∀ m ∈ moves, m.2.vars = m.1.vars)) ∧
    ∀ tvars tparams variances upper depth e,
      cfg.solveVars tvars tparams variances upper depth s = .ok (.error e) s' →
      e.Leaves tvars s s' := by
  have adds := cfg.queriesUpTo_adds (levelsLeft s)
  have hq := cfg.queriesUpTo_transactional (levelsLeft s)
  refine ⟨fun op answer run failed => ?_, fun tvars tparams variances upper depth e run => ?_⟩
  · rw [run_eq] at run
    have h : Reading (Charted (cfg.queriesUpTo (levelsLeft s)) s.vars op.unknowns) :=
      Charted.reading adds
    have charted : Charted (cfg.queriesUpTo (levelsLeft s)) s.vars op.unknowns (op.asking
        cfg (cfg.queriesUpTo (levelsLeft s))) (op.asking cfg (cfg.queriesUpTo (levelsLeft s))) := by
      cases op with
      | isSameTypes ls rs => exact h.sameAll (Charted.queries hq) _ _
      | isWithinBounds => exact h.withinBounds (Charted.queries hq) _ _ _ _
      | specializesSym => exact h.specializes (Charted.queries hq) _ _ _
      | solve =>
        exact (Charted.reading adds).solve_of_group
          (Charted.queries hq) _ _ _ _ fun _ n progress u hg hu =>
          solveOne_charted hq adds hg _ n progress u hu
      | _ => exact failed.elim
    obtain ⟨moves, course⟩ := charted s (.of_vars_eq rfl) answer s' run
    exact ⟨moves, course, course.vars_eq_iff adds⟩
  · exact (solve_delivers adds s tvars tparams variances upper depth s rfl).2 e s' run

/-- `v =:= String` held, `Int =:= Boolean` did not, and `v` stays instantiated. -/
theorem failed_list_leaves_instantiation :
    let cfg : Config := ⟨{}, .typeConstraints, 8⟩
    let query := cfg.isSameTypes [.var ⟨0⟩, Known.scalaRef Known.int]
      [Known.javaLangRef Known.string, Known.scalaRef Known.boolean]
    pairsState.vars.openSnapshots = 0 ∧ query.answer? pairsState = some false ∧
      (query.after pairsState).vars.vars = #[{
        origin := Known.anyType, level := 0, constraint :=
          { inst := some (Known.javaLangRef Known.string) } }] := by
  decide +kernel

/-- Two failures in a row. The list leaves `v` instantiated to `String`, by a question that held;
then solving for a variable above `v` finds `String` out of its bounds, and leaves it solved. -/
theorem failed_list_then_failed_solving :
    let cfg : Config := ⟨{}, .typeConstraints, 8⟩
    let ls : List Ty := [.var ⟨0⟩, Known.scalaRef Known.int]
    let rs : List Ty := [Known.javaLangRef Known.string, Known.scalaRef Known.boolean]
    let s1 := (cfg.isSameTypes ls rs).after pairsState
    let s2 := (freshVar Known.anyType { lo := [.var ⟨0⟩], hi := [Known.scalaRef Known.int] }).after
      s1
    let solving := cfg.solveVars [.var ⟨1⟩] [⟨25⟩] [.invariant] false .unlimited
    let s3 := solving.after s2
    cfg.isSameTypes ls rs pairsState = .ok false s1 ∧ s1.vars.vars ≠ pairsState.vars.vars ∧
      (∃ moves, Course (cfg.queriesUpTo (levelsLeft pairsState))
        pairsState.vars [] pairsState.vars moves s1.vars ∧ ¬ ∀ m ∈ moves, m.2.vars = m.1.vars) ∧
      solving s2 = .ok (.error (.boundsViolation ⟨1⟩ (Known.javaLangRef Known.string))) s3 ∧
      (s3.vars.inst? ⟨1⟩).isSome = true := by
  intro cfg ls rs s1 s2 solving s3
  have failed : cfg.isSameTypes ls rs pairsState = .ok false s1 :=
    run_of_answer? (by decide +kernel)
  have moved : s1.vars.vars ≠ pairsState.vars.vars := by decide +kernel
  obtain ⟨moves, course, still⟩ :=
    (cfg.failed_operation_leaves_what_it_registered pairsState s1).1
      (.isSameTypes ls rs) false failed rfl
  have refused : solving s2 = .ok (.error (.boundsViolation ⟨1⟩ (Known.javaLangRef Known.string)))
    s3 :=
    run_of_answer? (by decide +kernel)
  have leaves := (cfg.failed_operation_leaves_what_it_registered s2 s3).2 _ _ _ _ _ _ refused
  exact ⟨failed, moved, ⟨moves, course, fun all => moved (still.2 all)⟩,
    refused, leaves.2 ⟨1⟩ List.mem_cons_self⟩

end Config

end Conformance

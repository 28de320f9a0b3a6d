import Conformance.Proofs.Ranges.Tables
import Conformance.Proofs.Walk.Cascade

/-! # Two runs of a rule in step

The rules of the checker reach its state through a handful of operations, and they reach other
queries only through their parameter. So a relation between computations that sequencing keeps, and
that holds of each operation against itself, holds between two runs of any rule as soon as it holds
between the queries the two runs may ask. A property of single runs is the relation that ignores its
second side.

The rules that change a variable are hypotheses here: those that instantiate one
(`registerEquality`, `solveOne`) and the one that registers a bound. `Reading.equality_of_writes`
and `Reading.solveOne_of_writes` discharge the first two for relations that allow every write, and a
relation in `Lockstep` allows bounds to be added to any variable. So is the annotation checker: the
other operations on the table that the rules use fail only for want of fuel, and the relation need
not hold of more than these. -/

namespace Conformance

namespace CheckM

/-- The variables as they are. -/
def readVars : CheckM (VarLog Ty) := return (← get).vars

end CheckM

/-- Looking the variables up, then going on with them. -/
theorem knownVars_bind {β : Type} (tvars : List Ty) (f : List VarId → SolveM β) :
    (ExceptT.mk (return knownVars (← get).vars tvars) >>= f : SolveM β).run =
      CheckM.readVars >>= fun vars => match knownVars vars tvars with
        | .ok vs => (f vs).run
        | .error e => pure (.error e) := by
  funext s
  show ExceptT.bindCont f (knownVars s.vars tvars) s = (match knownVars s.vars tvars with
    | .ok vs => (f vs).run
    | .error e => pure (.error e) : CheckM (Except (SolveError Ty) β)) s
  cases knownVars s.vars tvars <;> rfl

/-- Changes of a variable that add bounds at most. -/
inductive AddsBound : (VarInfo Ty → VarInfo Ty) → Prop
  | bound (side : Side) (ty : Ty) : AddsBound (VarInfo.addBound side ty)
  | keep : AddsBound fun info => info

theorem AddsBound.when (c : Bool) (side : Side) (ty : Ty) :
    AddsBound fun info => if c then info.addBound side ty else info := by
  cases c
  · exact .keep
  · exact .bound side ty

/-- A relation that the operations have to themselves that look at the variables and do not touch
them. -/
structure Reading (P : {α : Type} → CheckM α → CheckM α → Prop) : Prop
    extends Sequenced CheckM P where
  exhausted {α : Type} : P (throw .exhausted : CheckM α) (throw .exhausted)
  onTable {α : Type} {x : SymM α} : Unfailing x → P (CheckM.onTable x) (CheckM.onTable x)
  readVars : P CheckM.readVars CheckM.readVars

/-- A relation that the operations of the rules have to themselves, those apart that change a
variable. -/
structure Stepwise (P : {α : Type} → CheckM α → CheckM α → Prop) : Prop extends Reading P where
  freshVar (origin : Ty) (c : Constraint Ty) :
    P (CheckM.freshVar origin c) (CheckM.freshVar origin c)
  atDeeperLevel {α : Type} {x y : Nat → CheckM α} (hx : ∀ level, P (x level) (y level)) :
    P (CheckM.atDeeperLevel x) (CheckM.atDeeperLevel y)
  speculate {α : Type} {x y : CheckM α} (hx : P x y) : P (CheckM.speculate x) (CheckM.speculate y)

/-- A relation that the operations of the rules have to themselves, also those that add a bound,
with any annotation checker. -/
structure Lockstep (P : {α : Type} → CheckM α → CheckM α → Prop) : Prop extends Stepwise P where
  anyTable {α : Type} (x : SymM α) : P (CheckM.onTable x) (CheckM.onTable x)
  addBound (v : VarId) {f : VarInfo Ty → VarInfo Ty} (hf : AddsBound f) :
    P (CheckM.updateVar v f) (CheckM.updateVar v f)

/-- The queries of the two runs are in step. -/
structure Queries.InStep (P : {α : Type} → CheckM α → CheckM α → Prop) (q q' : Queries) : Prop where
  sub (l r : Ty) (depth : Depth) : P (q.sub l r depth) (q'.sub l r depth)
  same (l r : Ty) : P (q.same l r) (q'.same l r)

/-- Two runs in step, whose answers satisfy `Q`. -/
def Together (P : {α : Type} → CheckM α → CheckM α → Prop)
    {α : Type} (n : Nat) (x y : CheckM α) (Q : Nat → α → Prop) : Prop :=
  P x y ∧ (∀ s a s', x s = .ok a s' → ∃ k, n ≤ k ∧ Q k a) ∧ ∀ s a s', y s = .ok a s' →
    ∃ k, n ≤ k ∧ Q k a

section Walk

variable {P : {α : Type} → CheckM α → CheckM α → Prop} {n : Nat} {α β : Type} {x y : CheckM α}

theorem Together.inStep {Q : Nat → α → Prop} (h : Together P 0 x y Q) : P x y := h.1

theorem Together.of {Q : Nat → α → Prop} (h : P x y) (hQ : ∀ a, Q n a) : Together P n x y Q :=
  ⟨h, fun _ a _ _ => ⟨n, Nat.le_refl _, hQ a⟩, fun _ a _ _ => ⟨n, Nat.le_refl _, hQ a⟩⟩

theorem Queries.InStep.walks {q q' : Queries} (hq : InStep P q q') :
    q.Walks .all .same (fun n x y Q => Together P n x y Q) q' where
  sub {_ l r} _ _ depth := .of (by simpa using hq.sub l r depth) fun _ => trivial
  same {_ l r} _ _ := .of (by simpa using hq.same l r) fun _ => trivial

theorem Queries.InStep.checkAgainst {q q' : Queries}
    (hq : InStep P q q') (side : Side) (ty target : Ty) :
    P (Conformance.checkAgainst q side ty target) (Conformance.checkAgainst q' side ty target) := by
  cases side
  · exact hq.sub ty target _
  · exact hq.sub target ty _

namespace Reading

variable (h : Reading P)
include h

theorem readTable : P CheckM.readTable CheckM.readTable := h.onTable .get

theorem varInfo? (v : VarId) : P (CheckM.varInfo? v) (CheckM.varInfo? v) :=
  show P (CheckM.readVars >>= fun vars => pure (vars.info? v)) _ from
    h.bind h.readVars fun _ => h.pure _

theorem instantiate {cfg : Config} (ty : Ty) : P (Conformance.instantiate cfg ty)
    (Conformance.instantiate cfg ty) := by
  refine (h.bind h.readVars fun vars => h.onTable ?_ : P
    (CheckM.readVars >>= fun vars => CheckM.onTable
    (instantiateWith (fun v => (vars.info? v).bind (·.constraint.inst)) cfg.fuel [] ty)) _)
  generalize (fun v => (vars.info? v).bind (·.constraint.inst)) = inst?
  exact (instantiateWith_walks unfailing.walk (fun _ _ _ _ => Scope.all_ty _)
    (show ∀ v, inst? (Relabeling.same.move v) = Relabeling.same.move (inst? v) by simp)
    cfg.fuel [] 0 ty (Nat.le_refl _) (Scope.all_ty ty)).holds

/-- What follows may use what is known of the answers. -/
theorem together_bind {f f' : α → CheckM β} {R : Nat → α → Prop} {Q : Nat → β → Prop}
    (hx : Together P n x y R) (hf : ∀ a k, n ≤ k → R k a → Together P k (f a) (f' a) Q) :
    Together P n (x >>= f) (y >>= f') Q := by
  classical
  obtain ⟨hx, post, post'⟩ := hx
  have checked :
      ∀ {z : CheckM α} (g : α → CheckM β), (∀ s a s', z s = .ok a s' → ∃ k, n ≤ k ∧ R k a) →
      z >>= g = z >>= fun a => if ∃ k, n ≤ k ∧ R k a then g a else throw .exhausted := fun g post =>
    bind_eq_of_run fun a s s' run => (if_pos (post s a s' run)).symm
  refine ⟨?_, fun s b s' run => ?_, fun s b s' run => ?_⟩
  · rw [checked f post, checked f' post']
    refine h.bind hx fun a => ?_
    split
    next ok =>
      obtain ⟨k, hk, ha⟩ := ok
      exact (hf a k hk ha).1
    · exact h.exhausted
  · obtain ⟨a, s1, first, second⟩ := exists_of_bind run
    obtain ⟨k, hk, ha⟩ := post s a s1 first
    obtain ⟨k', hk', hb⟩ := (hf a k hk ha).2.1 s1 b s' second
    exact ⟨k', Nat.le_trans hk hk', hb⟩
  · obtain ⟨a, s1, first, second⟩ := exists_of_bind run
    obtain ⟨k, hk, ha⟩ := post' s a s1 first
    obtain ⟨k', hk', hb⟩ := (hf a k hk ha).2.2 s1 b s' second
    exact ⟨k', Nat.le_trans hk hk', hb⟩

theorem walk : CheckWalk .all .same (fun src dst => src.length ≤ dst.length)
    (fun b _ _ n x y Q => b = 0 → OneRun (fun x => Unfailing x) n x y Q) fun n x y Q =>
    Together P n x y Q where
  pure {_ _ _ _ a' _} same ha := by
    rw [Relabeling.same_move] at same
    subst same
    exact ⟨h.pure _, fun s b s' run => ⟨_, Nat.le_refl _, by cases run; exact ha _ (Nat.le_refl _)⟩,
      fun s b s' run => ⟨_, Nat.le_refl _, by cases run; exact ha _ (Nat.le_refl _)⟩⟩
  bind hx hf := h.together_bind hx fun a k hk ha => by
    have next := hf a k hk ha
    rwa [Relabeling.same_move] at next
  tables := unfailing.walk.based
  onTable {_ _ n x y Q} hx := by
    obtain ⟨rfl, hx, post⟩ := hx 0 rfl
    have answers : ∀ s a s', CheckM.onTable x s = .ok a s' → ∃ k, n ≤ k ∧ Q k a := fun s a s' run =>
      have ⟨t, run, _⟩ := CheckM.exists_of_onTable run
      post _ a t run
    exact ⟨h.onTable hx, answers, answers⟩
  readTable_bind hf := h.together_bind (R := fun _ _ => True)
    (.of h.readTable fun _ => trivial) fun t k hk _ =>
    hf t t (Scope.all_closedAt k t) (Relabeling.reads_same t) hk
  exhausted := ⟨h.exhausted, (fun _ _ _ run => nomatch run), fun _ _ _ run => nomatch run⟩
  varInfo? _ := .of (by simpa using h.varInfo? _) fun _ _ _ =>
    ⟨Scope.all_ty _, Scope.all_tys _, Scope.all_tys _, fun _ _ => Scope.all_ty _⟩
  instantiate _ _ _ := .of (by simpa using h.instantiate _) Scope.all_ty
  knownVars {n} tvars := by
    have answers : ∀ s r s', (CheckM.readVars >>= fun vars => pure (knownVars vars tvars))
        s = .ok r s' → ∃ k, n ≤ k ∧ ∀ vs, r = .ok vs → ∀ v ∈ vs, Ty.var v ∈ tvars := by
      intro s r s' run
      cases run
      exact ⟨n, Nat.le_refl _, fun vs => mem_of_knownVars⟩
    rw [Relabeling.same_move]
    exact ⟨(h.bind h.readVars fun _ => h.pure _ : P
      (CheckM.readVars >>= fun vars => pure (knownVars vars tvars)) _), answers, answers⟩

end Reading

end Walk

namespace Reading

variable {P : {α : Type} → CheckM α → CheckM α → Prop}
  (h : Reading P) {cfg : Config} {q q' : Queries}
include h

/-! ## Rules that write to no variable -/

section Rules

variable (hq : Queries.InStep P q q')
include hq

theorem sameAll (ls rs : List Ty) : P (q.sameAll ls rs) (q'.sameAll ls rs) := by
  simpa using (sameAll_walks h.walk hq.walks (Scope.all_tys ls) (Scope.all_tys rs)).inStep

theorem argsConform (depth : Depth) (ls rs : List Ty) (ps : List SymbolId) :
    P (Conformance.argsConform q depth ls rs ps) (Conformance.argsConform q' depth ls rs ps) := by
  simpa using (argsConform_walks h.walk hq.walks depth (Scope.all_tys ls)
    (Scope.all_tys rs) ps).inStep

theorem constructorConforms (pre1 : Ty) (s1 : SymbolId) (pre2 : Ty) (s2 : SymbolId)
    (depth : Depth) : P (Conformance.constructorConforms cfg q pre1 s1 pre2 s2 depth)
      (Conformance.constructorConforms cfg q' pre1 s1 pre2 s2 depth) := by
  simpa using (constructorConforms_walks h.walk hq.walks (Scope.all_ty pre1)
    (Scope.all_ty pre2) s1 s2 depth).inStep

theorem glb (types : List Ty) : P (Conformance.glb cfg q types) (Conformance.glb cfg q' types) := by
  simpa using (glb_walks h.walk hq.walks (Scope.all_tys types)).inStep

theorem lubUpTo (n : Nat) (types : List Ty) : P (Conformance.lubUpTo cfg q n types)
    (Conformance.lubUpTo cfg q' n types) := by
  simpa using (lubUpTo_walks h.walk hq.walks n (Scope.all_tys types)).inStep

theorem dependsOn (up : Bool) (param bound : Ty) (other : SymbolId) :
    P (Conformance.dependsOn q up param bound other)
    (Conformance.dependsOn q' up param bound other) := by
  simpa using (dependsOn_walks h.walk hq.walks up (Scope.all_ty param) (Scope.all_sym other)).inStep

theorem chooseInst (g : SolveGroup) (depth : Depth) (u : Unknown) : P
    (Conformance.chooseInst cfg q g depth u).run (Conformance.chooseInst cfg q' g depth u).run := by
  simpa using Together.inStep (chooseInst_walks h.walk hq.walks (g := g) (u := u) depth trivial)

theorem withinBounds (pre : Ty) (owner : SymbolId) (tparams : List SymbolId) (targs : List Ty) :
    P (Conformance.withinBounds cfg q pre owner tparams targs)
      (Conformance.withinBounds cfg q' pre owner tparams targs) := by
  simpa using (withinBounds_walks h.walk hq.walks (Scope.all_ty pre)
    (Scope.all_sym owner) (Scope.all_syms tparams) (Scope.all_tys targs)).inStep

theorem specializesMember (ty : Ty) (s1 s2 : SymbolId) (depth : Depth) :
    P (Conformance.specializesMember cfg q ty s1 s2 depth)
      (Conformance.specializesMember cfg q' ty s1 s2 depth) := by
  simpa using (specializesMember_walks h.walk hq.walks (Scope.all_ty ty)
    (Scope.all_sym s1) (Scope.all_sym s2) depth).inStep

theorem specializes (ty : Ty) (s : SymbolId) (depth : Depth) :
    P (Conformance.specializes cfg q ty s depth) (Conformance.specializes cfg q' ty s depth) := by
  simpa using (specializes_walks h.walk hq.walks (Scope.all_ty ty) (Scope.all_sym s) depth).inStep

/-! ## Variables -/

theorem bound_of_write {side : Side} {v : VarId} (hw : ∀ b, P
    (CheckM.updateVar v (VarInfo.addBound side b)) (CheckM.updateVar v (VarInfo.addBound side b)))
    (ty : Ty) : P (registerBound cfg q side v ty) (registerBound cfg q' side v ty) := by
  simpa using (registerBound_of_write h.walk hq.walks trivial (Scope.all_ty ty) fun {_ bound} _ _ =>
    .of (by simpa using hw bound) fun _ => trivial).inStep

theorem equality_of_write {v : VarId} (hw : ∀ f, P (CheckM.updateVar v f) (CheckM.updateVar v f))
    (ty : Ty) (onLeft : Bool) : P (registerEquality q v ty onLeft)
    (registerEquality q' v ty onLeft) := by
  simpa using (registerEquality_of_write h.walk hq.walks trivial (Scope.all_ty ty) onLeft fun _ =>
    .of (by simpa using hw _) fun _ => trivial).inStep

theorem equality_of_writes (hw : ∀ v f, P (CheckM.updateVar v f) (CheckM.updateVar v f))
    (v : VarId) (ty : Ty) (onLeft : Bool) : P (registerEquality q v ty onLeft)
    (registerEquality q' v ty onLeft) :=
  h.equality_of_write hq (hw v) ty onLeft

end Rules

/-- The variable that is solved is the one that declared bounds are added to. -/
theorem addDeclaredBounds (g : SolveGroup) {u : Unknown}
    (bound : Ty) (hw : ∀ f, AddsBound f → P (CheckM.updateVar u.var f) (CheckM.updateVar u.var f)) :
    P (Conformance.addDeclaredBounds cfg g u bound)
    (Conformance.addDeclaredBounds cfg g u bound) := by
  simpa using (addDeclaredBounds_walks h.walk (fun {_} informative side {b} _ _ =>
    .of (by simpa using hw _ (.when informative side b)) fun _ => trivial)
      (g := g) (fun _ _ => ⟨trivial, trivial⟩)
    (Scope.all_ty bound)).inStep

theorem solving : Sequenced SolveM fun x y => P x.run y.run := h.exceptT

theorem lift {α : Type} {x y : CheckM α} (hx : P x y) :
    P (liftM x : SolveM α).run (liftM y : SolveM α).run := h.bind hx fun _ => h.pure _

variable (hq : Queries.InStep P q q')
include hq

/-- Solving writes to the variables of the group and to no others. It looks at a variable before it
does, and solves it only if it finds it open. -/
theorem solveOne_of_look {K O : VarId → Prop}
    (look : ∀ {v : VarId} {f f' : Option (VarInfo Ty) → SolveM (List Progress)},
      (∀ info, (info.bind (·.constraint.inst) = none → O v) → P (f info).run (f' info).run) →
      P (liftM (CheckM.varInfo? v) >>= f : SolveM (List Progress)).run
        (liftM (CheckM.varInfo? v) >>= f' : SolveM (List Progress)).run)
    (bound : ∀ v, K v → ∀ f, AddsBound f → P (CheckM.updateVar v f) (CheckM.updateVar v f))
    (solution : ∀ v, K v → O v → ∀ ty,
      P (CheckM.updateVar v (.setInst ty))
        (CheckM.updateVar v (.setInst ty))) {g : SolveGroup}
    (hg : ∀ u ∈ g.unknowns, K u.var) (depth : Depth)
      (n : Nat) (progress : List Progress) (u : Unknown × Nat)
    (hu : K u.1.var) : P (solveOne cfg q g depth n progress u).run
      (solveOne cfg q' g depth n progress u).run := by
  induction n generalizing progress u with
  | zero => exact h.pure _
  | succ n ih =>
    obtain ⟨u, i⟩ := u
    rw [solveOne_succ, solveOne_succ]
    refine ite_run_rel (h.pure _) (look fun info first => ?_)
    by_cases solved : (info.bind (·.constraint.inst)).isSome = true
    · rw [if_pos solved, if_pos solved]
      exact h.pure _
    rw [if_neg solved, if_neg solved]
    refine h.solving.bind (h.lift h.readTable) fun t =>
      h.solving.bind ?_ fun (progress, cyclic) => ?_
    · refine h.solving.foldlM_mem (fun (progress, cyclic) (other, j) mem =>
        ite_run_rel (h.pure _) ?_) _
      refine h.solving.bind (h.lift (h.dependsOn hq _ _ _ _)) fun _ => ite_run_rel (h.pure _) ?_
      exact h.solving.bind (ih _ _ (hg _ (List.fst_mem_of_mem_zipIdx mem))) fun _ => h.pure _
    · -- the write, with or without declared bounds added before
      have chosen : P (enterChoice cfg q g depth u (progress.set i .done)).run
          (enterChoice cfg q' g depth u (progress.set i .done)).run :=
        h.solving.bind (h.chooseInst hq g depth u) fun inst =>
          h.solving.bind (h.lift (solution _ hu (first (by simpa using solved)) inst)) fun _ =>
            h.pure _
      exact ite_run_rel (h.solving.bind (h.lift (h.addDeclaredBounds _ _ (bound _ hu))) fun _ =>
        chosen) chosen

theorem solveOne_of_group {K : VarId → Prop} (hw : ∀ v, K v → ∀ f, P (CheckM.updateVar v f)
    (CheckM.updateVar v f)) {g : SolveGroup} (hg : ∀ u ∈ g.unknowns, K u.var)
    (depth : Depth) (n : Nat) (progress : List Progress) (u : Unknown × Nat) (hu : K u.1.var) :
    P (solveOne cfg q g depth n progress u).run (solveOne cfg q' g depth n progress u).run :=
  h.solveOne_of_look hq (O := fun _ => True)
    (fun hf => h.solving.bind (h.lift (h.varInfo? _)) fun info => hf info fun _ => trivial)
    (fun v hv f _ => hw v hv f) (fun v hv _ _ => hw v hv _) hg depth n progress u hu

theorem solveOne_of_writes (hw : ∀ v f, P (CheckM.updateVar v f) (CheckM.updateVar v f))
    (g : SolveGroup) (depth : Depth) (n : Nat) (progress : List Progress) (u : Unknown × Nat) :
    P (solveOne cfg q g depth n progress u).run (solveOne cfg q' g depth n progress u).run :=
  h.solveOne_of_group hq (K := fun _ => True) (fun v _ => hw v)
    (fun _ _ => trivial) depth n progress u trivial

theorem solve_of_group {tvars : List Ty} (tparams : List SymbolId)
    (variances : List Variance) (upper : Bool) (depth : Depth)
    (hs : ∀ g n progress (u : Unknown × Nat), (∀ w ∈ g.unknowns, Ty.var w.var ∈ tvars) →
      u.1 ∈ g.unknowns → P (solveOne cfg q g depth n progress u).run
        (solveOne cfg q' g depth n progress u).run) :
    P (Conformance.solve cfg q tvars tparams variances upper depth).run
      (Conformance.solve cfg q' tvars tparams variances upper depth).run := by
  have run := solve_walks h.walk hq.walks (F := fun v => Ty.var v ∈ tvars)
    (fun {_} g n progress u _ hg hu => .of (by simpa using hs g n progress u hg hu) fun _ _ _ =>
    trivial) (fun v mem => ⟨trivial, mem⟩) (n := 0) (Scope.all_syms tparams) variances upper
  simpa using Together.inStep run

theorem solve (hs : ∀ g depth n progress u,
      P (solveOne cfg q g depth n progress u).run (solveOne cfg q' g depth n progress u).run)
    (tvars : List Ty) (tparams : List SymbolId) (variances : List Variance) (upper : Bool)
    (depth : Depth) : P (Conformance.solve cfg q tvars tparams variances upper depth).run
      (Conformance.solve cfg q' tvars tparams variances upper depth).run :=
  h.solve_of_group hq tparams variances upper depth fun g n progress u _ _ =>
    hs g depth n progress u

end Reading

namespace Stepwise

variable {P : {α : Type} → CheckM α → CheckM α → Prop}
  (h : Stepwise P) {cfg : Config} {q q' : Queries} (hq : Queries.InStep P q q')
include h

theorem freshVars (ps : List SymbolId) :
      P (ps.mapM fun s => do CheckM.freshVar ((← CheckM.readTable).typeConstructor s) {})
      (ps.mapM fun s => do CheckM.freshVar ((← CheckM.readTable).typeConstructor s) {}) :=
  h.mapM (fun _ => h.bind h.readTable fun _ => h.freshVar _ _) ps

include hq

theorem speculated {n : Nat} {l r : Ty} : Together P n (CheckM.speculate (q.same l r))
    (CheckM.speculate (q'.same (Relabeling.same.move l) (Relabeling.same.move r))) Scope.all.In :=
  .of (by simpa using h.speculate (hq.same l r)) fun _ => trivial

theorem different (l r : Ty) : P (q.different l r) (q'.different l r) :=
  h.bind (h.speculate (hq.same l r)) fun _ => h.pure _

theorem differentConstructor (ty1 ty2 : Ty) : P (Conformance.differentConstructor q ty1 ty2)
    (Conformance.differentConstructor q' ty1 ty2) := by
  simpa using (differentConstructor_walks h.walk (fun _ _ => h.speculated hq)
    (Scope.all_ty ty1) (Scope.all_ty ty2)).inStep

theorem finalPass (ty1 ty2 : Ty) (depth : Depth) :
    P (Conformance.finalPass cfg q ty1 ty2 depth) (Conformance.finalPass cfg q' ty1 ty2 depth) := by
  simpa using (finalPass_walks h.walk hq.walks (fun _ _ => h.speculated hq)
    (Scope.all_ty ty1) (Scope.all_ty ty2) depth).inStep

theorem rightRef (ty1 pre2 : Ty) (s2 : SymbolId) (args2 : List Ty) (depth : Depth) :
    P (Conformance.rightRef cfg q ty1 pre2 s2 args2 depth)
      (Conformance.rightRef cfg q' ty1 pre2 s2 args2 depth) := by
  simpa using (rightRef_walks h.walk hq.walks (fun _ _ => h.speculated hq) (Scope.all_ty ty1)
    (Scope.all_ty (.ref pre2 s2 args2)) depth).inStep

theorem conformsToExistential (hs : ∀ g depth n progress u,
      P (solveOne cfg q g depth n progress u).run (solveOne cfg q' g depth n progress u).run)
    (ty : Ty) (quantified : List SymbolId) (body : Ty) (depth : Depth) :
    P (Conformance.conformsToExistential cfg q ty quantified body depth)
      (Conformance.conformsToExistential cfg q' ty quantified body depth) := by
  have made : ∀ {n} {origin : Ty}, Together P n (CheckM.freshVar origin {})
    (CheckM.freshVar origin {}) fun _ ty =>
      ∃ v, ty = .var v ∧ Scope.all.var v ∧ True := fun {n origin} =>
    have answers : ∀ s a s', CheckM.freshVar origin {} s = .ok a s' →
      ∃ k, n ≤ k ∧ ∃ v, a = Ty.var v ∧ Scope.all.var v ∧ True :=
      fun _ _ _ run => by cases run; exact ⟨_, Nat.le_refl _, _, rfl, trivial, trivial⟩
    ⟨h.freshVar origin {}, answers, answers⟩
  simpa using (conformsToExistential_walks h.walk hq.walks (F := fun _ => True)
    (fun {_ _} _ => by simpa using made) (fun {_} g n progress u _ _ _ =>
    .of (by simpa using hs g depth n progress u) fun _ _ _ => trivial)
    (Scope.all_ty ty) (Scope.all_syms quantified) (Scope.all_ty body)).inStep

section Annotations

variable (ha : ∀ l r, P (CheckM.onTable (cfg.annotations l r))
  (CheckM.onTable (cfg.annotations l r)))
include ha

omit h hq in
theorem annotations : cfg.annotations.Walks .all .same fun n x y Q =>
    Together P n x y Q := fun {_ l r} _ _ =>
  .of (by simpa using ha l r) fun _ => trivial

section Equality

variable (he : ∀ v ty onLeft, P (registerEquality q v ty onLeft) (registerEquality q' v ty onLeft))
include he

theorem sameOtherwise (ty1 ty2 : Ty) :
    P (Conformance.sameOtherwise cfg q ty1 ty2) (Conformance.sameOtherwise cfg q' ty1 ty2) := by
  simpa using (sameOtherwise_walks h.walk hq.walks (annotations ha)
    (Scope.all_ty ty1) (Scope.all_ty ty2) fun {_ v ty} onLeft _ _ _ =>
    .of (by simpa using he v ty onLeft) fun _ => trivial).inStep

theorem sameStep (ty1 ty2 : Ty) : P (Conformance.sameStep cfg q ty1 ty2)
    (Conformance.sameStep cfg q' ty1 ty2) := by
  simpa using (sameStep_walks h.walk hq.walks (annotations ha) (Scope.all_ty ty1) (Scope.all_ty ty2)
    fun {_ v ty} onLeft _ _ _ => .of (by simpa using he v ty onLeft) fun _ => trivial).inStep

end Equality

theorem subStep (hx : ∀ ty quantified body depth, P (Conformance.conformsToExistential cfg q
      ty quantified body depth) (Conformance.conformsToExistential cfg q' ty quantified body depth))
    (hb : ∀ side v ty, P (Conformance.registerBound cfg q side v ty)
      (Conformance.registerBound cfg q' side v ty))
    (ty1 ty2 : Ty) (depth : Depth) :
    P (Conformance.subStep cfg q ty1 ty2 depth) (Conformance.subStep cfg q' ty1 ty2 depth) := by
  simpa using (subStep_walks h.walk hq.walks (annotations ha)
    (fun _ _ => h.speculated hq) (fun {_ ty quantified body} depth _ _ _ =>
    .of (by simpa using hx ty quantified body depth) fun _ => trivial) (Scope.all_ty ty1)
    (Scope.all_ty ty2) (fun {_ v ty} side _ _ => .of (by simpa using hb side v ty) fun _ => trivial)
    (fun hl => .of (h.atDeeperLevel fun level => (hl level).1) fun _ => trivial) depth).inStep

end Annotations

end Stepwise

namespace Lockstep

variable {P : {α : Type} → CheckM α → CheckM α → Prop}
  (h : Lockstep P) {cfg : Config} {q q' : Queries} (hq : Queries.InStep P q q')
include h hq

theorem registerBound (side : Side) (v : VarId) (ty : Ty) :
    P (Conformance.registerBound cfg q side v ty) (Conformance.registerBound cfg q' side v ty) :=
  h.bound_of_write hq (fun b => h.addBound v (.bound side b)) ty

theorem subStep (hs : ∀ g depth n progress u,
      P (solveOne cfg q g depth n progress u).run (solveOne cfg q' g depth n progress u).run)
    (ty1 ty2 : Ty) (depth : Depth) :
    P (Conformance.subStep cfg q ty1 ty2 depth) (Conformance.subStep cfg q' ty1 ty2 depth) :=
  h.toStepwise.subStep hq (fun _ _ => h.anyTable _)
    (h.conformsToExistential hq hs) (h.registerBound hq) ty1 ty2 depth

theorem sameStep
    (he : ∀ v ty onLeft, P (registerEquality q v ty onLeft) (registerEquality q' v ty onLeft))
    (ty1 ty2 : Ty) : P (Conformance.sameStep cfg q ty1 ty2) (Conformance.sameStep cfg q' ty1 ty2) :=
  h.toStepwise.sameStep hq (fun _ _ => h.anyTable _) he ty1 ty2

end Lockstep

end Conformance

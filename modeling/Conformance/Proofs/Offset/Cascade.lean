import Conformance.Proofs.Offset.States

/-! # Rules and queries over an offset

Rules answer alike on the two sides of an offset if the queries that they ask do, and so do queries
at any level of nesting. -/

namespace Conformance

open CheckM Relabeling

/-- An annotation checker that answers alike on the two sides. -/
def AnnotationChecker.Carries (check : AnnotationChecker) (g : Offset) : Prop :=
  ∀ l r, g.Moves (check l r) (check (g.names.move l) (g.names.move r))

/-- Queries that answer alike on the two sides, and can be taken back. -/
structure Queries.Carries (q : Queries) (g : Offset) : Prop where
  sub : ∀ l r depth, g.Moves (q.sub l r depth) (q.sub (g.names.move l) (g.names.move r) depth)
  same : ∀ l r, g.Moves (q.same l r) (q.same (g.names.move l) (g.names.move r))
  undoes : Queries.InStep (fun x _ => Keeps Undoes x) q q

namespace Offset

variable {g : Offset} {cfg : Config} {n : Nat}

theorem typeConstraints_carries (g : Offset) : AnnotationChecker.typeConstraints.Carries g := by
  refine fun l r => Moves.get_bind fun t t' (h : g.Tables t t') => .pure ?_
  rw [annotations_move, move_list, List.all_map]
  exact congrArg (r.annotations.all ·) (funext fun a => by simp [h.flags])

/-! ## Steps of rules -/

theorem instantiate_moves (ty : Ty) : g.Moves (instantiate cfg ty)
    (instantiate cfg (g.names.move ty)) := by
  refine .get_bind fun s s' hs => ?_
  have hs : g.States s s' := hs
  refine (MovesFrom.moves (n := 0) (instantiateWith_walks (g.tables_walk _) (fun _ _ _ _ =>
    Scope.all_ty _) (fun v => ?_) cfg.fuel [] 0 ty (Nat.le_refl _) (Scope.all_ty ty) rfl)).lift
  rw [hs.vars.info?]
  cases s.vars.info? v <;> rfl

theorem Stores.knownVars {l l' : VarLog Ty} (h : g.Stores l l') (tvars : List Ty) :
    knownVars l' (g.names.move tvars) = g.names.move (Conformance.knownVars l tvars) := by
  induction tvars with
  | nil => rfl
  | cons ty tvars ih =>
    cases ty with
    | var v =>
      rw [move_cons, move_var, Conformance.knownVars, Conformance.knownVars, h.contains, ih]
      split
      · cases Conformance.knownVars l tvars <;> rfl
      · rfl
    | _ => rfl

/-- Rules that write to no variable answer alike on the two sides of an offset. -/
theorem rules_walk (g : Offset) : CheckWalk .all g.names (fun _ _ => True)
    (fun b _ _ n x y Q => b = g.base.size → g.MovesFrom n x y Q) fun n x y Q =>
    g.MovesFrom n x y Q where
  pure := .pure
  bind := .bind
  tables := tables_walk g
  onTable hx := Twins.lift (hx _ rfl)
  readTable_bind h s s' hs := h _ _ (Scope.all_closedAt _ _)
    (Tables.toReads hs.table) (Nat.le_refl _) s s' hs
  exhausted _ _ hs := .error hs
  varInfo? {_ v} _ := (varInfo?_moves v).of fun _ _ _ =>
    ⟨Scope.all_ty _, Scope.all_tys _, Scope.all_tys _, fun _ _ => Scope.all_ty _⟩
  instantiate _ ty _ := (instantiate_moves ty).of fun _ => Scope.all_ty _
  knownVars {n} tvars _ _ hs := .ok ⟨hs.vars.knownVars tvars, n, Nat.le_refl _, fun _ =>
    mem_of_knownVars⟩ hs

end Offset

section Carries

variable {g : Offset} {cfg : Config} {q : Queries}

theorem AnnotationChecker.Carries.walks (ha : cfg.annotations.Carries g) :
    cfg.annotations.Walks .all g.names fun n x y Q => g.MovesFrom n x y Q :=
  fun {_ l r} _ _ => (ha l r).lift.of fun _ => trivial

theorem Queries.Carries.walks (hq : q.Carries g) :
    q.Walks .all g.names (fun n x y Q => g.MovesFrom n x y Q) q :=
  ⟨fun {_ l r} _ _ depth => (hq.sub l r depth).of fun _ =>
    trivial, fun {_ l r} _ _ => (hq.same l r).of fun _ => trivial⟩

end Carries

namespace Offset

variable {g : Offset} {cfg : Config} {q : Queries} (hq : q.Carries g) {n : Nat}
include hq

theorem speculated_moves (l r : Ty) : g.MovesFrom n (speculate (q.same l r))
    (speculate (q.same (g.names.move l) (g.names.move r))) Scope.all.In :=
  (speculate_moves (hq.same l r) (hq.undoes.same _ _) (hq.undoes.same _ _)).of fun _ => trivial

theorem enterChoice_moves (group : SolveGroup) (depth : Depth)
    (u : Unknown) (progress : List Progress) : Attempts
    (fun n x y Q => g.MovesFrom n x y Q) n (enterChoice cfg q group depth u progress)
      (enterChoice cfg q (g.names.move group) depth (g.names.move u) progress) fun _ _ => True := by
  have walk := g.rules_walk
  refine walk.attempts.bind (chooseInst_walks walk hq.walks depth trivial) fun inst _ _ _ => ?_
  refine walk.attempts.bind (walk.attempt ((setInst_moves u.var inst).of fun _ => trivial))
    fun _ _ _ _ => ?_
  exact walk.attempts.pure (by simp) fun _ _ => trivial

theorem solveOne_moves (group : SolveGroup) (depth : Depth)
    (k : Nat) (progress : List Progress) (u : Unknown × Nat) :
    Attempts (fun n x y Q => g.MovesFrom n x y Q) n (solveOne cfg q group depth k progress u)
      (solveOne cfg q (g.names.move group) depth k progress (g.names.move u)) fun _ _ => True := by
  refine solveOne_walks (F := fun _ => True) g.rules_walk
    hq.walks (fun {_ v} informative side bound _ _ _ => ?_) (fun group u progress _ _ =>
    enterChoice_moves hq group depth u progress) k (fun _ _ => ⟨trivial, Scope.all_sym _⟩)
    (fun _ _ => trivial) progress ⟨trivial, Scope.all_sym _⟩ trivial
  refine (updateVar_moves v fun info => ?_).of fun _ => trivial
  cases informative with
  | true => exact addBound_move side bound info
  | false => rfl

variable (ha : cfg.annotations.Carries g)
include ha

theorem sameStep_moves (ty1 ty2 : Ty) :
    g.Moves (sameStep cfg q ty1 ty2) (sameStep cfg q (g.names.move ty1) (g.names.move ty2)) := by
  refine MovesFrom.moves (n := 0) (sameStep_walks g.rules_walk hq.walks ha.walks (Scope.all_ty ty1)
    (Scope.all_ty ty2) fun {_ v ty} onLeft _ _ _ => ?_)
  exact registerEquality_of_write g.rules_walk hq.walks trivial (Scope.all_ty ty) onLeft fun _ =>
    (setInst_moves v ty).of fun _ => trivial

theorem subStep_moves (ty1 ty2 : Ty) (depth : Depth) : g.Moves (subStep cfg q ty1 ty2 depth)
    (subStep cfg q (g.names.move ty1) (g.names.move ty2) depth) := by
  refine MovesFrom.moves (n := 0) (subStep_walks g.rules_walk
    hq.walks ha.walks (fun _ _ => speculated_moves hq _ _) (fun depth hty hquantified hbody => ?_)
    (Scope.all_ty ty1) (Scope.all_ty ty2) (fun side hv hty => ?_)
    (fun h => (atDeeperLevel_moves fun level => (h level).moves).of fun _ => trivial) depth)
  · refine conformsToExistential_walks (F := fun _ => True)
      g.rules_walk hq.walks (fun {_ origin} _ => ?_) (fun group k progress u _ _ _ =>
      solveOne_moves hq group depth k progress u) hty hquantified hbody
    exact Twins.imp (freshVar_moves origin {}) fun _ _ ⟨same, k, hk, v, made⟩ =>
      ⟨same, k, hk, v, made, trivial, trivial⟩
  · exact registerBound_of_write g.rules_walk hq.walks hv hty fun _ _ =>
      (updateVar_moves _ (addBound_move side _)).of fun _ => trivial

omit hq ha

/-! ## Queries -/

/-- Queries answer alike on the two sides of an offset, however far they may nest. -/
theorem queriesUpTo_carries (ha : cfg.annotations.Carries g)
    (n : Nat) : (cfg.queriesUpTo n).Carries g := by
  have undoes := fun n => (cfg.queriesUpTo_transactional n).undoes
  induction n with
  | zero =>
    have undone : Keeps Undoes (pure false : CheckM Bool) := fun _ => .of_vars_eq rfl
    have balanced : Keeps Balanced (pure false : CheckM Bool) := Balanced.refl
    exact ⟨fun l r depth => reported_moves _ _ _ (guarded_moves (enters_key (l, r))
      (.pure rfl) undone undone balanced), fun l r => reported_moves
      _ _ _ (guarded_moves enters_untracked (.pure rfl) undone undone balanced), undoes 0⟩
  | succ n ih =>
    have sub := subStep_undoes cfg (undoes n)
    have same := sameStep_undoes cfg (undoes n)
    have balanced := cfg.queriesUpTo_balanced n
    refine ⟨fun l r depth => ?_, fun l r => ?_, undoes (n + 1)⟩
    · exact reported_moves _ _ _ (guarded_moves (enters_key (l, r)) (subStep_moves ih ha l r depth)
        (sub _ _ _) (sub _ _ _) (subStep_balanced cfg balanced l r depth))
    · exact reported_moves _ _ _ (guarded_moves enters_untracked (sameStep_moves ih ha l r)
        (same _ _) (same _ _) (sameStep_balanced cfg balanced l r))

theorem withQueries_moves (ha : cfg.annotations.Carries g) {α : Type} [Movable α]
    {f f' : Queries → CheckM α} (h : ∀ q : Queries, q.Carries g → g.Moves (f q) (f' q)) :
    g.Moves (cfg.withQueries f) (cfg.withQueries f') := by
  refine .get_bind fun s s' hs => ?_
  have hs : g.States s s' := hs
  rw [Config.levelsLeft, Config.levelsLeft, hs.guard.maxDepth,
    hs.guard.depth, Nat.add_sub_add_right]
  exact h _ (queriesUpTo_carries ha _)

end Offset

/-! ## A gap is an offset without variables -/

/-- The gap, with no variables on the far side. -/
def Gap.offset (g : Gap) : Offset := ⟨g, #[], .inl rfl, 0⟩

/-- The answers of the annotation checker do not depend on which symbols the types it is given are
about, as long as the table says the same of them. -/
def AnnotationChecker.Natural (check : AnnotationChecker) : Prop :=
    ∀ g : Gap, check.Carries g.offset

theorem AnnotationChecker.typeConstraints_natural : typeConstraints.Natural := fun g =>
  Offset.typeConstraints_carries g.offset

namespace Gap

variable {g : Gap}

theorem move_enteredTy {ty : Ty} (h : Scope.entered.In g.base.size ty) :
    g.offset.names.move ty = ty :=
  Offset.move_enteredTy h fun _ _ _ => rfl

end Gap

end Conformance

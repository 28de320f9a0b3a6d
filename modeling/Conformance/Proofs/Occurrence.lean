import Mathlib.Order.WellFounded
import Conformance.Proofs.Expansion
import Conformance.Proofs.SolveLoop

/-! # Instantiations and the variables in them

A variable is instantiated by an equality or by a solver. The solver looks whether the variable
occurs in what is to stand for it, an equality does not: `v =:= Box[v]` holds, and `v` stands for
`Box[v]`. This is the only way to a variable that leads back to itself. The queries of `checkedUpTo`
are those of the checker, but an alarm ends the run where an equality that held has left a side that
leads on without end. In a session that never raises it, what stands for variables has no cycle, so
replacing variables is complete and doing it again changes nothing. -/

namespace Conformance

variable {x y : CheckM Bool} {s : CheckState} {m : Nat} {ty : Ty}

open CheckM

variable {n : Nat}

namespace SymbolTable

/-- What stands for `v` mentions `w`. -/
def Uses (t : SymbolTable) (inst? : VarId → Option Ty) (v w : VarId) : Prop :=
  ∃ ty, inst? v = some ty ∧ t.mentionsVar ty w = true

/-- From `v` to the variables that it uses, and so on, one comes to an end. -/
def Ends (t : SymbolTable) (inst? : VarId → Option Ty) (v : VarId) : Prop :=
    Acc (fun y x => t.Uses inst? x y) v

/-- One comes to an end from every variable. -/
def Acyclic (t : SymbolTable) (inst? : VarId → Option Ty) : Prop :=
    WellFounded fun y x => t.Uses inst? x y

variable {t t' : SymbolTable} {inst? inst?' : VarId → Option Ty} {v w : VarId}

theorem mentionsVar_iff : t.mentionsVar ty w = true ↔ t.Reaches ty (.var w) := by
  rw [mentionsVar, existsType_iff]
  constructor
  · rintro ⟨c, mem, hc⟩
    cases c with
    | var w' =>
      obtain rfl : w' = w := eq_of_beq hc
      exact mem
    | _ => cases hc
  · exact fun h => ⟨_, h, beq_self_eq_true w⟩

/-- A way through instantiations goes from variable to variable. -/
theorem Leads.uses (h : t.Leads inst? ty (.var w)) :
    t.Reaches ty (.var w) ∨ ∃ u, t.Reaches ty (.var u) ∧ Relation.TransGen (t.Uses inst?) u w := by
  generalize hc : Ty.var w = c at h
  induction h with
  | refl ty =>
    subst hc
    exact .inl (.refl _)
  | child mem _ ih =>
    obtain reached | ⟨u, reached, path⟩ := ih hc
    · exact .inl (.child mem reached)
    · exact .inr ⟨u, .child mem reached, path⟩
  | @inst v _ _ hv _ ih =>
    refine .inr ⟨v, .refl _, ?_⟩
    subst hc
    obtain reached | ⟨u, reached, path⟩ := ih rfl
    · exact .single ⟨_, hv, mentionsVar_iff.2 reached⟩
    · exact .head ⟨_, hv, mentionsVar_iff.2 reached⟩ path

theorem Ends.no_cycle (h : t.Ends inst? v) : ¬ Relation.TransGen (t.Uses inst?) v v := by
  induction h with
  | intro v _ ih =>
    intro cycle
    obtain ⟨w, uses, back⟩ := Relation.TransGen.head'_iff.1 cycle
    exact ih w uses (.tail' back uses)

namespace Acyclic

theorem no_cycle (h : t.Acyclic inst?) (v : VarId) : ¬ Relation.TransGen (t.Uses inst?) v v :=
  Ends.no_cycle (h.apply v)

theorem unlooped (h : t.Acyclic inst?) : t.Unlooped inst? := by
  intro v ty hv leads
  obtain reached | ⟨u, reached, path⟩ := leads.uses
  · exact h.no_cycle v (.single ⟨ty, hv, mentionsVar_iff.2 reached⟩)
  · exact h.no_cycle v (.head ⟨ty, hv, mentionsVar_iff.2 reached⟩ path)

/-- Only what stands for `v` has changed, and from `v` one comes to an end. -/
theorem update (h : t.Acyclic inst?) (hsame : ∀ u, u ≠ v → inst?' u = inst? u)
    (hv : t.Ends inst?' v) : t.Acyclic inst?' := by
  refine ⟨fun u => ?_⟩
  induction u using h.induction with
  | _ u ih =>
    by_cases huv : u = v
    · exact huv ▸ hv
    · refine ⟨u, fun w ⟨ty, hu, uses⟩ => ih w ⟨ty, hsame u huv ▸ hu, uses⟩⟩

/-- What a type in scope mentions does not change as the table grows. -/
theorem grow (h : t.Acyclic inst?) (known : Known.count ≤ t.size)
    (ht : Scope.entered.Closed t) (grown : t.Extends t.size t')
    (hinst : ∀ v ty, inst? v = some ty → Scope.entered.In t.size ty) : t'.Acyclic inst? := by
  refine Subrelation.wf (fun {w v} ⟨ty, hv, uses⟩ => ?_) h
  exact ⟨ty, hv, mentionsVar_iff.2 (Reaches.of_extends known ht grown (mentionsVar_iff.1 uses)
    (hinst v ty hv)).1⟩

end Acyclic

/-- From `v` one comes to an end in `n` steps at most. -/
def endsWithin (t : SymbolTable) (inst? : VarId → Option Ty) : Nat → VarId → Bool
  | 0, v => (inst? v).isNone
  | n + 1, v => match inst? v with
    | none => true
    | some ty => (t.reachable ty).all fun
      | .var w => t.endsWithin inst? n w
      | _ => true

theorem endsWithin_succ : t.endsWithin inst? (n + 1) v = true ↔
    ∀ w, t.Uses inst? v w → t.endsWithin inst? n w = true := by
  rw [endsWithin]
  cases hv : inst? v with
  | none => exact ⟨fun _ w ⟨ty, hty, _⟩ => (nomatch hv ▸ hty), fun _ => rfl⟩
  | some ty =>
    simp only [List.all_eq_true]
    constructor
    · rintro h w ⟨ty', hty', uses⟩
      obtain rfl : ty = ty' := Option.some.inj (hv.symm.trans hty')
      exact h _ (mem_reachable.2 (mentionsVar_iff.1 uses))
    · intro h c mem
      cases c with
      | var w => exact h w ⟨ty, hv, mentionsVar_iff.2 (mem_reachable.1 mem)⟩
      | _ => rfl

theorem ends_of_endsWithin (h : t.endsWithin inst? n v = true) : t.Ends inst? v := by
  induction n generalizing v with
  | zero =>
    refine ⟨v, fun w ⟨ty, hv, _⟩ => ?_⟩
    rw [endsWithin, hv] at h
    cases h
  | succ n ih => exact ⟨v, fun w uses => ih (endsWithin_succ.1 h w uses)⟩

end SymbolTable

/-! ## The invariant -/

/-- What stands for a variable. -/
def instOf (vars : Array (VarInfo Ty)) (v : VarId) : Option Ty :=
    (vars[v.val]?).bind (·.constraint.inst)

theorem instOf_push (vars : Array (VarInfo Ty)) {info : VarInfo Ty}
    (h : info.constraint.inst = none) : instOf (vars.push info) = instOf vars := by
  funext v
  unfold instOf
  rw [Array.getElem?_push]
  split
  next hv => rw [hv, Array.getElem?_eq_none (Nat.le_refl _), Option.bind_some, Option.bind_none, h]
  next => rfl

theorem instOf_set {vars : Array (VarInfo Ty)} {old : VarInfo Ty}
    (hold : vars[v.val]? = some old) (info : VarInfo Ty) (u : VarId) : instOf
    (vars.setIfInBounds v.val info) u = if v = u then info.constraint.inst else instOf vars u := by
  have bound : v.val < vars.size := (Array.getElem?_eq_some_iff.1 hold).1
  unfold instOf
  rw [Array.getElem?_setIfInBounds]
  by_cases huv : v = u
  · subst huv
    simp [bound]
  · have hne : v.val ≠ u.val := fun h => huv (congrArg VarId.mk h)
    rw [if_neg hne, if_neg huv]

/-- Constraints are in scope, and what stands for variables has no cycle. -/
structure Loopless (t : SymbolTable) (vars : Array (VarInfo Ty)) : Prop where
  levelled : Levelled (fun _ => False) t vars
  acyclic : t.Acyclic (instOf vars)

namespace Loopless

variable {t t' : SymbolTable} {vars : Array (VarInfo Ty)} {v : VarId} {old info : VarInfo Ty}

theorem inst_entered (h : Loopless t vars) (v : VarId) (ty : Ty) (hv : instOf vars v = some ty) :
    Scope.entered.In t.size ty := by
  obtain ⟨info, hinfo, hinst⟩ := Option.bind_eq_some_iff.1 hv
  exact (h.levelled.entered hinfo).2.2.2 ty hinst

theorem grow (h : Loopless t vars) (ht : Scope.entered.Closed t)
    (grown : t.Extends t.size t') : Loopless t' vars :=
  ⟨h.levelled.grow ht grown, h.acyclic.grow h.levelled.known ht grown h.inst_entered⟩

/-- A write that leaves alone what stands for the variable. -/
theorem set (h : Loopless t vars) (hold : vars[v.val]? = some old)
    (hinfo : Scope.entered.In t.size info) (hlevel : info.level = old.level)
    (hinst : info.constraint.inst = old.constraint.inst) :
    Loopless t (vars.setIfInBounds v.val info) := by
  refine ⟨h.levelled.set hold hinfo hlevel False.elim, ?_⟩
  have same : instOf (vars.setIfInBounds v.val info) = instOf vars := by
    funext u
    rw [instOf_set hold]
    split
    next huv =>
      subst huv
      rw [hinst, instOf, hold]
      rfl
    next => rfl
  exact same ▸ h.acyclic

theorem push (h : Loopless t vars) (hinfo : Scope.entered.In t.size info)
    (hinst : info.constraint.inst = none) : Loopless t (vars.push info) :=
  ⟨h.levelled.push hinfo False.elim fun _ => .inl, instOf_push vars hinst ▸ h.acyclic⟩

/-- The variable is instantiated to a type from which one comes to an end. -/
theorem instantiate (h : Loopless t vars) (hold : vars[v.val]? = some old)
    (hty : Scope.entered.In t.size ty) (hv : t.Ends
    (instOf (vars.setIfInBounds v.val { old with constraint := old.constraint.setInst ty })) v) :
    Loopless t (vars.setIfInBounds v.val { old with constraint := old.constraint.setInst ty }) := by
  refine ⟨h.levelled.write hold hty .inst (.inl id), h.acyclic.update (fun u huv => ?_) hv⟩
  rw [instOf_set hold, if_neg (Ne.symm huv)]

end Loopless

theorem upkeep_loopless : Upkeep .entered (fun _ => True) Loopless where
  grow ht h grown _ _ := h.grow ht grown
  info h _ hi := h.levelled.entered hi
  bound side _ h _ hi hty _ := by
    refine h.set hi ((EntersType.bound side).in_scope _ (h.levelled.entered hi) hty)
      (VarInfo.level_addBound ..) ?_
    exact VarInfo.inst_addBound ..
  fresh _ _ h horigin := ⟨h.push ⟨horigin, .nil, .nil, .none⟩ rfl, trivial, trivial⟩

/-! ## Equalities under watch -/

/-- From `ty`, if it is a variable, one comes to an end in as many steps as there are variables. -/
def CheckState.ends (s : CheckState) : Ty → Bool
  | .var v => s.table.endsWithin s.vars.inst? s.vars.vars.size v
  | _ => true

/-- Ends with `alarm` if `x` holds and leaves `l` or `r` without end. -/
def CheckM.occursChecked (alarm : Failure) (l r : Ty) (x : CheckM Bool) : CheckM Bool := do
  let held ← x
  let s ← get
  if held && !(s.ends l && s.ends r) then throw alarm else return held

theorem occursChecked_run (alarm : Failure) (l r : Ty) (x : CheckM Bool) (s : CheckState) :
    occursChecked alarm l r x s = match x s with
      | .ok held s' => if held && !(s'.ends l && s'.ends r) then .error alarm s' else .ok held s'
      | .error e s' => .error e s' := by
  cases hx : x s with
  | ok held s' =>
    rw [occursChecked, bind_ok hx]
    show (if held && !(s'.ends l && s'.ends r) then throw alarm else pure held : CheckM Bool) s' =
      if held && !(s'.ends l && s'.ends r) then .error alarm s' else .ok held s'
    split <;> rfl
  | error e s' => rw [occursChecked, bind_error hx]

/-- The equality is contained, also where the alarm ends it. -/
def Watched (J : StoreInv) (alarm : Failure) (l r : Ty) (n : Nat) (x : CheckM Bool) : Prop :=
  Contained .entered J n (occursChecked alarm l r x)

namespace Watched

variable {J : StoreInv} {alarm : Failure} {l r : Ty} {n : Nat} {α : Type}

theorem of_upheld (hx : Asked .entered J n x) : Watched J alarm l r n x := by
  intro s ht hn hJ
  have run := hx s ht hn hJ
  rw [occursChecked_run]
  generalize x s = result at run ⊢
  cases result with
  | ok held s' =>
    simp only
    split
    · exact run.1.builds fun _ => trivial
    · cases held with
      | true => exact run.1
      | false => exact run.1.builds fun _ => trivial
  | error e s' => exact run.builds fun _ => trivial

theorem ite {c : Prop} [Decidable c] (hx : Watched J alarm l r n x) (hy : Watched J alarm l r n y) :
    Watched J alarm l r n (if c then x else y) := by
  split
  · exact hx
  · exact hy

theorem bind {x : CheckM α} {P : Nat → α → Prop} {f : α → CheckM Bool}
    (hx : Upheld .entered J n x P) (hf : ∀ a m, n ≤ m → P m a → Watched J alarm l r m (f a)) :
    Watched J alarm l r n (x >>= f) := by
  intro s ht hn hJ
  have first := hx s ht hn hJ
  cases hr : x s with
  | error e s1 =>
    rw [hr] at first
    rw [occursChecked_run, bind_error hr]
    exact first.builds fun _ => trivial
  | ok a s1 =>
    rw [hr] at first
    obtain ⟨step, ha⟩ := first
    have same : occursChecked alarm l r (x >>= f) s = occursChecked alarm l r (f a) s1 := by
      rw [occursChecked_run, occursChecked_run, bind_ok hr]
    have second := hf a s1.table.size (Nat.le_trans hn step.grown.size_le)
      ha s1 step.closed (Nat.le_refl _) step.holds
    rw [same]
    have built : ∀ {s2}, Builds .entered s1 s2 → Builds .entered s s2 :=
      fun h => ⟨h.1, step.grown.next h.2.1, trivial⟩
    generalize occursChecked alarm l r (f a) s1 = result at second ⊢
    cases result with
    | error e s2 => exact built second
    | ok held s2 =>
      cases held with
      | true => exact step.trans second
      | false => exact built second

end Watched

section Equalities

variable {cfg : Config} (ha : cfg.annotations.Safe .entered)
  {q : Queries} (hq : q.Upheld .entered Loopless) {n : Nat} {alarm : Failure} {l r : Ty}

/-- The alarm stays silent only if one comes to an end from the variable that is now
instantiated. -/
theorem setInst_watched (hside : l = .var v ∨ r = .var v)
    (hty : Scope.entered.In n ty) : Watched Loopless alarm l r n (do
      updateVar v (.setInst ty)
      return true) := by
  intro s ht hn hJ
  have state : (updateVar v (.setInst ty)) s =
      .ok () { s with vars := s.vars.update v (.setInst ty) } := rfl
  rw [occursChecked_run, bind_ok state]
  show Commits .entered Loopless s (if true && !(_ && _) then _ else _)
  split
  · exact ⟨ht, .refl _ _, trivial⟩
  next silent =>
    simp only [Bool.true_and, Bool.not_eq_true, Bool.not_eq_false', Bool.and_eq_true] at silent
    generalize hvars : s.vars.update v _ = vars' at silent ⊢
    have ends : s.table.Ends (instOf vars'.vars) v := by
      obtain rfl | rfl := hside
      · exact SymbolTable.ends_of_endsWithin silent.1
      · exact SymbolTable.ends_of_endsWithin silent.2
    cases hi : s.vars.info? v with
    | none =>
      rw [UndoLog.update_unknown hi] at hvars
      subst hvars
      exact ⟨ht, .refl _ _, .refl _, hJ⟩
    | some i =>
      subst hvars
      have vars := UndoLog.vars_update hi (.setInst ty)
      rw [vars] at ends
      exact ⟨ht, .refl _ _, vars ▸ .set hi rfl, vars ▸ hJ.instantiate hi (hty.mono hn) ends⟩

include hq

theorem registerEquality_watched (hside : l = .var v ∨ r = .var v) (hty : Scope.entered.In n ty)
    (onLeft : Bool) : Watched Loopless alarm l r n (registerEquality q v ty onLeft) := by
  refine .bind (varInfo?_upheld upkeep_loopless trivial) fun o m hm ho => ?_
  cases o with
  | none => exact .of_upheld (.any _)
  | some i =>
    have hi := ho i rfl
    have hty := hty.mono hm
    refine .ite (.of_upheld (hq.same hty hi.1)) ?_
    cases hinst : i.constraint.inst with
    | some inst =>
      have hinst := hi.2.2.2 inst hinst
      exact .of_upheld (.ite (hq.same hinst hty) (hq.same hty hinst))
    | none =>
      have read : Upheld .entered Loopless m readTable fun _ _ => True := fun _ ht _ hJ =>
        ⟨⟨ht, .refl _ _, .refl _, hJ⟩, trivial⟩
      refine .bind read fun t m1 hm1 _ => .ite (.of_upheld (.any _)) ?_
      refine .bind (.allM fun lo mem k hk => hq.sub ((hi.2.1 lo mem).mono (by omega))
        (hty.mono (by omega)) _) fun _ m2 hm2 _ => .ite (.of_upheld (.any _)) ?_
      refine .bind (.allM fun hi' mem k hk => hq.sub (hty.mono (by omega))
        ((hi.2.2.1 hi' mem).mono (by omega)) _) fun _ m3 hm3 _ => .ite (.of_upheld (.any _)) ?_
      exact setInst_watched hside (hty.mono (by omega))

variable (hl : Scope.entered.In n l) (hr : Scope.entered.In n r)
include hl hr ha

theorem sameOtherwise_watched : Watched Loopless alarm l r n (sameOtherwise cfg q l r) := by
  have plain : (∀ v, l ≠ .var v) → (∀ v, r ≠ .var v) →
    Watched Loopless alarm l r n (sameOtherwise cfg q l r) :=
    fun noL noR => .of_upheld (sameOtherwise_walks (upheld_walk upkeep_loopless) hq.walks
      (AnnotationChecker.Keeping.walks upkeep_loopless ha.keeping) hl hr
      fun _ _ _ side => side.elim (absurd · (noL _)) (absurd · (noR _)))
  cases l with
  | var v =>
    cases r with
    | boundedWildcard bounds =>
      exact .of_upheld (boundsContain_walks (upheld_walk upkeep_loopless)
        hq.walks hr.wildcard_bounds hl)
    | _ => exact registerEquality_watched hq (.inl rfl) hr true
  | boundedWildcard bounds =>
    exact .of_upheld (boundsContain_walks (upheld_walk upkeep_loopless)
      hq.walks hl.wildcard_bounds hr)
  | _ =>
    cases r with
    | var v => exact registerEquality_watched hq (.inr rfl) hl false
    | _ => exact plain nofun nofun

theorem sameStep_watched : Watched Loopless alarm l r n (sameStep cfg q l r) := by
  have prefixed : ∀ {ty : Ty}, Scope.entered.In n ty →
    Watched Loopless alarm l r n (isPackagePrefix cfg ty) := fun hty =>
    .of_upheld (isPackagePrefix_walks (upheld_walk upkeep_loopless) hty)
  refine .ite (.of_upheld (.any _))
    (.ite (.of_upheld (.any _)) (.ite (prefixed hr) (.ite (prefixed hl) ?_)))
  refine .bind (sameShape_walks (upheld_walk upkeep_loopless) hq.walks hl hr) fun answer k hk _ =>
    ?_
  cases answer with
  | none => exact sameOtherwise_watched ha hq (hl.mono hk) (hr.mono hk)
  | some answer => exact .of_upheld (.any _)

end Equalities

/-! ## Solutions -/

/-- What follows the choice follows the check that the variable does not occur. -/
theorem chooseInst_bind {α : Type} (cfg : Config) (q : Queries) (g : SolveGroup)
    (depth : Depth) (u : Unknown) (k : Ty → SolveM α) : (chooseInst cfg q g depth u >>= k) = (do
      match ← varInfo? u.var with
      | none => throw (.unknownVar u.var)
      | some info =>
        let inst ← if g.upwards u then glb cfg q info.constraint.hi
          else lubUpTo cfg q (min ((depth.remaining?).getD Limits.lubDepth)
          Limits.lubDepth) info.constraint.lo
        let inst ← instantiate cfg inst
        if (← readTable).mentionsVar inst u.var then throw (.occursCheck u.var inst)
        k inst : SolveM α) := by
  have checked : ∀ (t : SymbolTable) (inst : Ty), ((do
      if t.mentionsVar inst u.var then throw (.occursCheck u.var inst)
      return inst) >>= k : SolveM α) = (do
      if t.mentionsVar inst u.var then throw (.occursCheck u.var inst)
      k inst) := by
    intro t inst
    split
    · rw [bind_assoc]
      simp only [pure_bind]
    · rw [pure_bind]
  unfold chooseInst
  rw [bind_assoc]
  refine bind_congr fun o => ?_
  cases o with
  | none => rfl
  | some info =>
    dsimp only
    split
    · simp only [bind_assoc]
      exact bind_congr fun _ => bind_congr fun inst => bind_congr fun t => checked t inst
    · simp only [bind_assoc]
      exact bind_congr fun _ => bind_congr fun inst => bind_congr fun t => checked t inst

theorem SolveM.run_lift_bind {α β : Type} (y : CheckM β) (f : β → SolveM α) :
    ((liftM y : SolveM β) >>= f).run = y >>= fun b => (f b).run := by
  exact ExceptT.run_bind_lift y f

section Solver

variable {cfg : Config} {q : Queries}

theorem instantiate_run (ty : Ty) (s : CheckState) : instantiate cfg ty s =
    onTable (instantiateWith (instOf s.vars.vars) cfg.fuel [] ty) s := rfl

theorem Loopless.instantiated {ty' : Ty} {s' : CheckState} (ht : Scope.entered.Closed s.table)
    (h : Loopless s.table s.vars.vars) (hty : Scope.entered.In s.table.size ty)
    (run : Conformance.instantiate cfg ty s = .ok ty' s') :
    s'.vars = s.vars ∧ s'.table.Resolved (instOf s.vars.vars) [] cfg.fuel ty' := by
  obtain ⟨t', expanded, rfl⟩ := exists_of_onTable ((instantiate_run ty s).symm.trans run)
  have expands := instantiateWith_expands h.levelled.known
    ht h.inst_entered h.acyclic.unlooped cfg.fuel hty fun v (hv : v ∈ []) => nomatch hv
  have resolved := expands s.table (.refl _ _)
  rw [expanded] at resolved
  exact ⟨rfl, resolved.2⟩

/-- The variable is instantiated to a resolved type in which it does not occur. -/
theorem Loopless.instantiate_resolved {vars : Array (VarInfo Ty)} {old : VarInfo Ty}
    (h : Loopless t vars) (hold : vars[v.val]? = some old) (hty : Scope.entered.In t.size ty)
    {avoid : List SymbolId} (resolved : t.Resolved (instOf vars) avoid n ty)
    (hocc : ¬ t.mentionsVar ty v = true) :
    Loopless t (vars.setIfInBounds v.val { old with constraint := old.constraint.setInst ty }) := by
  refine h.instantiate hold hty ⟨v, fun w ⟨ty', hv, mentions⟩ => ?_⟩
  rw [instOf_set hold, if_pos rfl] at hv
  obtain rfl : ty = ty' := Option.some.inj hv
  have hwv : v ≠ w := fun hvw => hocc (hvw ▸ mentions)
  refine ⟨w, fun x ⟨ty', hw, _⟩ => ?_⟩
  rw [instOf_set hold, if_neg hwv, resolved.open_of_reaches
    (SymbolTable.mentionsVar_iff.1 mentions)] at hw
  cases hw

theorem chooses_loopless (hq : q.Upheld .entered Loopless) :
    Chooses .entered (fun _ => True) Loopless cfg q := by
  intro n g depth u a _ _
  have walk := upheld_walk upkeep_loopless
  have entered : ∀ inst m, Scope.entered.In m inst → Solved .entered Loopless m (do
      let inst ← instantiate cfg inst
      if (← readTable).mentionsVar inst u.var then throw (.occursCheck u.var inst)
      updateVar u.var (.setInst inst)
      return a : SolveM (List Progress)) fun _ _ => True := by
    intro inst m hinst s ht hn hJ
    have upheld : Upheld .entered Loopless m (instantiate cfg inst) fun k ty =>
      Scope.entered.In k ty :=
      instantiate_upheld upkeep_loopless hinst
    replace upheld := upheld s ht hn hJ
    rw [SolveM.run_lift_bind]
    cases hr : instantiate cfg inst s with
    | error e s1 =>
      rw [hr] at upheld
      rw [bind_error hr]
      exact upheld
    | ok ty s1 =>
      rw [hr] at upheld
      obtain ⟨step, hty⟩ := upheld
      obtain ⟨same, resolved⟩ := hJ.instantiated ht (hinst.mono hn) hr
      rw [bind_ok hr, SolveM.run_lift_bind, readTable_bind]
      split
      · exact ⟨step, fun _ h => nomatch h⟩
      next hocc =>
        have write : (updateVar u.var (.setInst ty)) s1 =
          .ok () { s1 with vars := s1.vars.update u.var (.setInst ty) } := rfl
        rw [SolveM.run_lift_bind, bind_ok write]
        refine ⟨step.trans ?_, fun _ _ => trivial⟩
        cases hi : s1.vars.info? u.var with
        | none =>
          rw [UndoLog.update_unknown hi]
          exact ⟨step.closed, .refl _ _, .refl _, step.holds⟩
        | some i =>
          have vars := UndoLog.vars_update hi (.setInst ty)
          exact ⟨step.closed, .refl _ _, vars ▸ .set hi rfl,
            vars ▸ step.holds.instantiate_resolved hi hty (same ▸ resolved) hocc⟩
  rw [enterChoice, chooseInst_bind]
  refine walk.attempts.bind (walk.attempt (walk.varInfo? trivial)) fun o m hm ho => ?_
  cases o with
  | none => exact walk.fails (by simp)
  | some info =>
    have hinfo := ho info rfl
    refine walk.attempts.ite Iff.rfl ?_ ?_
    · exact walk.attempts.bind (walk.attempt (glb_walks walk hq.walks hinfo.2.2.1))
        fun inst k _ hinst => entered inst k hinst
    · exact walk.attempts.bind (walk.attempt (lubUpTo_walks walk hq.walks _ hinfo.2.1))
        fun inst k _ hinst => entered inst k hinst

end Solver

/-! ## Queries under watch -/

namespace CheckM

/-- Why a computation fails; none if it answers. -/
def failure? {α : Type} (x : CheckM α) (s : CheckState) : Option Failure :=
  match x s with
  | .ok .. => none
  | .error e _ => some e

end CheckM

namespace Config

variable (cfg : Config)

/-- The queries with `n` levels of nesting left, in which an equality that closes a cycle raises an
alarm. -/
def checkedUpTo (alarm : Failure) : Nat → Queries
  | 0 => cfg.queriesUpTo 0
  | n + 1 =>
    { sub := fun l r depth => reported .subtype depth.remaining? <|
        guarded (·.enter (l, r)) (subStep cfg (checkedUpTo alarm n) l r depth)
      same := fun l r => reported .sameType none <| guarded (·.enterUntracked)
        (occursChecked alarm l r (sameStep cfg (checkedUpTo alarm n) l r)) }

/-- An operation whose equalities are watched. -/
def checkedRun (alarm : Failure) (op : Operation) : CheckM op.Answer := do
  op.asking cfg (cfg.checkedUpTo alarm (levelsLeft (← get)))

/-- No equality within the operation closes a cycle: there is an alarm that would say so, and it is
not raised. -/
def ClosesNoCycle (op : Operation) (s : CheckState) : Prop :=
  ∃ alarm, (cfg.checkedRun alarm op).failure? s ≠ some alarm

end Config

/-- The first run is the second one, unless it ends with the alarm. -/
def Heeds (alarm : Failure) {α : Type} (x y : CheckM α) : Prop :=
  ∀ s, (∃ s', x s = .error alarm s') ∨ x s = y s

section Heeds

variable {alarm : Failure} {α : Type}

theorem ending_heeds {x y : CheckM α} (h : (∃ s', x s = .error alarm s') ∨ x s = y s)
    (cleanup : CheckState → CheckState) : (∃ s', ending x cleanup s = .error alarm s') ∨
    ending x cleanup s = ending y cleanup s := by
  unfold ending
  obtain ⟨s', hx⟩ | same := h
  · rw [hx]
    exact .inl ⟨_, rfl⟩
  · rw [same]
    exact .inr rfl

theorem heeds_lockstep (alarm : Failure) : Lockstep (Heeds alarm) where
  pure _ _ := .inr rfl
  bind {_ _ x y f g} hx hf s := by
    obtain ⟨s', hx⟩ | same := hx s
    · exact .inl ⟨s', bind_error hx⟩
    · cases h : x s with
      | error e s' => exact .inr (by rw [bind_error h, bind_error (same ▸ h)])
      | ok a s' =>
        rw [bind_ok h, bind_ok (same ▸ h)]
        exact hf a s'
  exhausted _ := .inr rfl
  onTable _ _ := .inr rfl
  anyTable _ _ := .inr rfl
  readVars _ := .inr rfl
  addBound _ _ _ _ := .inr rfl
  freshVar _ _ _ := .inr rfl
  atDeeperLevel {_ x y} hx s := by
    have inner := hx s.skolems.enter.2.depth { s with skolems := s.skolems.enter.2 }
    rw [atDeeperLevel_run, atDeeperLevel_run]
    split
    · exact ending_heeds inner _
    · exact inner
  speculate hx s := ending_heeds (hx (opened s)) (undone s)

theorem query_heeds (hx : Heeds alarm x y)
    (enter : Guard.Entering) (op : Relation) (depth : Option Nat) :
    Heeds alarm (reported op depth (guarded enter x)) (reported op depth (guarded enter y)) := by
  intro s
  rw [query_run, query_run]
  cases (enter s.guard).1 with
  | cycle | tooDeep => exact .inr rfl
  | entered entry =>
    simp only [probe_run]
    obtain ⟨s', hs'⟩ | same := hx (opened (admitted enter op depth s))
    · rw [hs']
      exact .inl ⟨_, rfl⟩
    · rw [same]
      exact .inr rfl

theorem occursChecked_heeds (hx : Heeds alarm x y)
    (l r : Ty) : Heeds alarm (occursChecked alarm l r x) y := by
  intro s
  rw [occursChecked_run]
  obtain ⟨s', hs'⟩ | same := hx s
  · rw [hs']
    exact .inl ⟨s', rfl⟩
  · rw [← same]
    cases x s with
    | error e s' => exact .inr rfl
    | ok held s' =>
      simp only
      split
      · exact .inl ⟨s', rfl⟩
      · exact .inr rfl

theorem occursChecked_undoes (hx : Keeps Undoes x) (alarm : Failure) (l r : Ty) :
    Keeps Undoes (occursChecked alarm l r x) := by
  refine undoes_lockstep.bind (y := x) hx (g := fun _ => pure false) fun held s => .of_vars_eq ?_
  show (after (if held && !(s.ends l && s.ends r) then throw alarm else pure held) s).vars = s.vars
  split <;> rfl

end Heeds

namespace Config

variable (cfg : Config) (alarm : Failure)

theorem checkedUpTo_heeds (n : Nat) : Queries.InStep (Heeds alarm)
    (cfg.checkedUpTo alarm n) (cfg.queriesUpTo n) := by
  induction n with
  | zero => exact ⟨fun _ _ _ _ => .inr rfl, fun _ _ _ => .inr rfl⟩
  | succ n ih =>
    have h := heeds_lockstep alarm
    have writes : ∀ v f, Heeds alarm (updateVar v f) (updateVar v f) := fun _ _ _ => .inr rfl
    refine ⟨fun l r depth => query_heeds ?_ _ _ _, fun l r =>
      query_heeds (occursChecked_heeds ?_ l r) _ _ _⟩
    · exact h.subStep ih (h.solveOne_of_writes ih writes) l r depth
    · exact h.sameStep ih (h.equality_of_writes ih writes) l r

/-- An operation that raises no alarm runs as it does without the watch. -/
theorem checkedRun_heeds (op : Operation) : Heeds alarm (cfg.checkedRun alarm op) (cfg.run op) := by
  intro s
  rw [run_eq]
  show (∃ s', op.asking cfg (cfg.checkedUpTo alarm (levelsLeft s)) s = .error alarm s') ∨
    op.asking cfg (cfg.checkedUpTo alarm (levelsLeft s)) s = _
  by_cases hop : op = .resetStats
  · subst hop
    exact .inr rfl
  · exact (heeds_lockstep alarm).operation cfg (cfg.checkedUpTo_heeds alarm _)
      (fun _ _ _ => .inr rfl) hop s

theorem checkedUpTo_undoes (n : Nat) : Queries.InStep (fun x _ => Keeps Undoes x)
    (cfg.checkedUpTo alarm n) (cfg.checkedUpTo alarm n) := by
  induction n with
  | zero => exact (cfg.queriesUpTo_transactional 0).undoes
  | succ n ih =>
    exact ⟨fun l r depth => query_undoes (subStep_undoes cfg ih l r depth) _ _ _,
      fun l r => query_undoes (occursChecked_undoes (sameStep_undoes cfg ih l r) _ _ _) _ _ _⟩

variable {cfg}

theorem checkedUpTo_upheld (ha : cfg.annotations.Safe .entered) (k : Nat) :
    (cfg.checkedUpTo alarm k).Upheld .entered Loopless := by
  have hu := upkeep_loopless
  induction k with
  | zero =>
    exact ⟨fun _ _ _ => refused_upheld hu _ _ _, fun _ _ =>
      refused_upheld hu _ _ _, cfg.checkedUpTo_undoes alarm 0⟩
  | succ k hq =>
    have inner := cfg.checkedUpTo_undoes alarm k
    refine ⟨fun hl hr depth => query_upheld hu ?_ ?_ _ _ _, fun hl hr =>
      query_upheld hu ?_ ?_ _ _ _, cfg.checkedUpTo_undoes alarm (k + 1)⟩
    · exact subStep_undoes cfg inner _ _ _
    · exact (subStep_upheld hu hq (chooses_loopless hq) ha.keeping hl hr depth).contained hu
    · exact occursChecked_undoes (sameStep_undoes cfg inner _ _) _ _ _
    · exact sameStep_watched ha hq hl hr

end Config

/-! ## Sessions -/

/-- A new variable starts without an instantiation. -/
def Operation.startsOpen : Operation → Bool
  | .freshVar _ constraint => constraint.inst.isNone
  | _ => true

namespace Config

variable (cfg : Config)

/-- Each operation satisfies `R` in the state in which its turn comes. -/
def InTurn (R : Operation → CheckState → Prop) : List Operation → CheckState → Prop
  | [], _ => True
  | op :: ops, s => R op s ∧ InTurn R ops ((cfg.run op).after s)

/-- The operation is about symbols that are there, makes no instantiated variable, and closes no
cycle. -/
structure Careful (op : Operation) (s : CheckState) : Prop where
  names : op.Names s.table.size
  startsOpen : op.startsOpen = true
  closesNoCycle : cfg.ClosesNoCycle op s

variable {cfg}

theorem run_loopless (ha : cfg.annotations.Safe .entered) {op : Operation} (hop : cfg.Careful op s)
    (ht : Scope.entered.Closed s.table) (h : Loopless s.table s.vars.vars) :
    Scope.entered.Closed ((cfg.run op).after s).table ∧
      Loopless ((cfg.run op).after s).table ((cfg.run op).after s).vars.vars := by
  cases hask : op.isQuestion with
  | true =>
    obtain ⟨alarm, silent⟩ := hop.closesNoCycle
    have same : cfg.checkedRun alarm op s = cfg.run op s :=
      (cfg.checkedRun_heeds alarm op s).resolve_left fun ⟨s', raised⟩ =>
      silent (by rw [failure?, raised])
    have hq : Queries.Upheld .entered Loopless (cfg.checkedUpTo alarm (levelsLeft s)) :=
      checkedUpTo_upheld alarm ha _
    have hc : Chooses .entered (fun _ => True) Loopless
      cfg (cfg.checkedUpTo alarm (levelsLeft s)) := chooses_loopless hq
    have step := (Operation.asking_upheld upkeep_loopless
      hq hc hop.names.within (fun _ _ => ⟨trivial, trivial⟩) hask).onward ht (Nat.le_refl _) h
    have run : op.asking cfg (cfg.checkedUpTo alarm (levelsLeft s)) s = cfg.run op s := same
    rw [after, run, ← after] at step
    exact ⟨step.closed, step.holds⟩
  | false =>
    have flagged : ∀ (v : VarId) (b : Bool), Loopless
      s.table (s.vars.update v ({ · with suspended := b })).vars := by
      intro v b
      cases hi : s.vars.info? v with
      | none => exact (UndoLog.update_unknown hi _).symm ▸ h
      | some info =>
        rw [UndoLog.vars_update hi]
        have entered : Scope.entered.In s.table.size info := h.levelled.entered hi
        exact h.set hi entered rfl rfl
    cases op with
    | freshVar origin constraint =>
      exact ⟨ht, h.push hop.names (Option.isNone_iff_eq_none.1 hop.startsOpen)⟩
    | suspend v => exact ⟨ht, flagged v true⟩
    | resume v => exact ⟨ht, flagged v false⟩
    | resetStats => exact ⟨ht, h⟩
    | _ => cases hask

theorem session_loopless (ha : cfg.annotations.Safe .entered)
    {ops : List Operation} (hops : cfg.InTurn cfg.Careful ops s) (ht : Scope.entered.Closed s.table)
    (h : Loopless s.table s.vars.vars) : Scope.entered.Closed (cfg.session ops s).table ∧
    Loopless (cfg.session ops s).table (cfg.session ops s).vars.vars := by
  induction ops generalizing s with
  | nil => exact ⟨ht, h⟩
  | cons op ops ih =>
    obtain ⟨ht', h'⟩ := run_loopless ha hops.1 ht h
    exact ih hops.2 ht' h'

/-- In a session of operations that close no cycle, no variable leads back to itself. So replacing
the variables of a type leaves no instantiated one in it, and replacing them again changes
nothing. -/
theorem instantiations_have_no_cycle (ha : cfg.annotations.Safe .entered)
    {t : SymbolTable} (ht : t.WellFormed)
    (queries : Nat) (events : Array QueryEvent) {ops : List Operation}
    (hops : cfg.InTurn cfg.Careful ops (.fresh cfg.policy t queries events)) :
    let s := cfg.session ops (.fresh cfg.policy t queries events)
    (∀ v, ¬ Relation.TransGen (s.table.Uses s.vars.inst?) v v) ∧
    ∀ (ty ty' : Ty) (s' : CheckState), Scope.entered.In s.table.size ty →
      instantiate cfg ty s = .ok ty' s' →
      (∀ w, s'.table.mentionsVar ty' w = true → s'.vars.inst? w = none) ∧
        instantiate cfg ty' s' = .ok ty' s' := by
  intro s
  have start : Loopless t #[] :=
    ⟨⟨ht.known, fun hs => ht.plain _ hs, fun hi => (by cases hi), False.elim⟩,
      ⟨fun v => ⟨v, fun w ⟨ty, hv, _⟩ => by cases hv⟩⟩⟩
  obtain ⟨closed, loopless⟩ := session_loopless ha hops ht.closed start
  refine ⟨loopless.acyclic.no_cycle, fun ty ty' s' hty run => ?_⟩
  obtain ⟨same, resolved⟩ := loopless.instantiated closed hty run
  rw [← same] at resolved
  refine ⟨fun w mentions => resolved.open_of_reaches (SymbolTable.mentionsVar_iff.1 mentions), ?_⟩
  have fixed := instantiateWith_of_resolved (Nat.le_refl cfg.fuel) [] resolved
  rw [instantiate_run, onTable, EStateM.run, fixed]

/-- `v` is made equal to a pair with `w`, and `w` is solved by its lower bound. -/
theorem solved_variable_is_replaced :
    let cfg : Config := ⟨{}, .typeConstraints, 9⟩
    let t := SymM.declarePairs.after .initial
    let pair (a b : Ty) := Ty.ref (.this Known.scalaClass) ⟨Known.count⟩ [a, b]
    let int := Known.scalaRef Known.int
    let ops := [.freshVar Known.anyType {}, .freshVar Known.anyType {},
      .isSameType (.var ⟨0⟩) (pair (.var ⟨1⟩) int),
      .isSubtype int (.var ⟨1⟩), .solve [.var ⟨1⟩]
        [⟨Known.count + 1⟩] [.invariant] false .unlimited]
    let s0 := CheckState.fresh cfg.policy t 0 #[]
    let s := cfg.session ops s0
    cfg.annotations.Safe .entered ∧ t.WellFormed ∧ cfg.InTurn cfg.Careful ops s0 ∧
      s.vars.inst? ⟨0⟩ = some (pair (.var ⟨1⟩) int) ∧ (instantiate cfg (.var ⟨0⟩)).answer?
      s = some (pair int int) ∧ (∀ v, ¬ Relation.TransGen (s.table.Uses s.vars.inst?) v v) ∧
      instantiate cfg (pair int int) ((instantiate cfg (.var ⟨0⟩)).after s) =
        .ok (pair int int) ((instantiate cfg (.var ⟨0⟩)).after s) := by
  intro cfg t pair int ops s0 s
  have ha : cfg.annotations.Safe .entered := fun _ _ =>
    .get_bind fun _ _ _ _ => .pure fun _ _ => trivial
  have ht : t.WellFormed := by decide +kernel
  have hops : cfg.InTurn cfg.Careful ops s0 :=
    ⟨⟨by decide +kernel, rfl, .exhausted, by decide +kernel⟩,
      ⟨by decide +kernel, rfl, .exhausted, by decide +kernel⟩, ⟨by decide +kernel,
      rfl, .exhausted, by decide +kernel⟩, ⟨by decide +kernel, rfl, .exhausted, by decide +kernel⟩,
      ⟨by decide +kernel, rfl, .exhausted, by decide +kernel⟩, trivial⟩
  have answer : (instantiate cfg (.var ⟨0⟩)).answer? s = some (pair int int) := by decide +kernel
  obtain ⟨acyclic, replaced⟩ := instantiations_have_no_cycle ha ht 0 #[] hops
  exact ⟨ha, ht, hops, by decide +kernel, answer, acyclic,
    (replaced _ _ _ (.var trivial) (run_of_answer? answer)).2⟩

/-- `v =:= Pair[v, Any]` holds and `v` stands for a pair of itself. Replacing it leaves it there,
and replacing it again goes on. -/
theorem equality_closes_cycle :
    let cfg : Config := ⟨{}, .typeConstraints, 9⟩
    let t := SymM.declarePairs.after .initial
    let pair (a : Ty) := Ty.ref (.this Known.scalaClass) ⟨Known.count⟩ [a, Known.anyType]
    let v : Ty := .var ⟨0⟩
    let s1 := cfg.session [.freshVar Known.anyType {}] (.fresh cfg.policy t 0 #[])
    let s := (cfg.isSameType v (pair v)).after s1
    (cfg.isSameType v (pair v)).answer? s1 = some true ∧
    Relation.TransGen (s.table.Uses s.vars.inst?) ⟨0⟩ ⟨0⟩ ∧
      (instantiate cfg v).answer? s = some (pair v) ∧
        (instantiate cfg (pair v)).answer? s = some (pair (pair v)) ∧
      (cfg.checkedRun .exhausted (.isSameType v (pair v))).failure? s1 = some .exhausted := by
  intro cfg t pair v s1 s
  have uses : s.table.Uses s.vars.inst? ⟨0⟩ ⟨0⟩ := ⟨pair v, by decide +kernel, by decide +kernel⟩
  exact ⟨by decide +kernel, .single uses, by decide +kernel⟩

end Config

end Conformance

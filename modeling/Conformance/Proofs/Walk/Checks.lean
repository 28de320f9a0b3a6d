import Conformance.Proofs.Walk.Members

/-! # Two runs of a rule

A rule of the checker is run twice, as an operation on types is: over states that read alike under
other names, and with queries that answer alike. What has to hold of the steps of rules is a
`CheckWalk`; the operations on the table that rules use are walked before. The rules that write to
variables are left open, since writing is what properties of rules differ in. -/

namespace Conformance

open CheckM

/-! ## Variables -/

instance : Scoped (Constraint Ty) where
  inScope sc n c := sc.In n c.lo ∧ sc.In n c.hi ∧ sc.In n c.inst
  mono hnm h := ⟨h.1.mono hnm, h.2.1.mono hnm, h.2.2.mono hnm⟩

instance : Scoped (VarInfo Ty) where
  inScope sc n info := sc.In n info.origin ∧ sc.In n info.constraint
  mono hnm h := ⟨h.1.mono hnm, h.2.mono hnm⟩

section Instances

variable {τ : Type} [Movable τ]

instance : Movable (Constraint τ) where
  relabel f h c := ⟨Movable.relabel f h c.lo, Movable.relabel f h c.hi, Movable.relabel f h c.inst⟩
  relabel_id c := by simp [Movable.relabel_id]
  relabel_relabel f f' h h' c := by simp [Movable.relabel_relabel]

instance : Movable (VarInfo τ) where
  relabel f h i := { i with
    origin := Movable.relabel f h i.origin, constraint := Movable.relabel f h i.constraint }
  relabel_id i := by simp [Movable.relabel_id]
  relabel_relabel f f' h h' i := by simp [Movable.relabel_relabel]

end Instances

instance {ε α : Type} [Movable ε] [Movable α] : Movable (Except ε α) where
  relabel f h
    | .ok a => .ok (Movable.relabel f h a)
    | .error e => .error (Movable.relabel f h e)
  relabel_id r := by cases r <;> simp [Movable.relabel_id]
  relabel_relabel f f' h h' r := by cases r <;> simp [Movable.relabel_relabel]

instance {τ : Type} [Movable τ] : Movable (SolveError τ) where
  relabel f h
    | .unknownVar v => .unknownVar (h v)
    | .notAVar ty => .notAVar (Movable.relabel f h ty)
    | .boundsViolation v inst => .boundsViolation (h v) (Movable.relabel f h inst)
    | .occursCheck v inst => .occursCheck (h v) (Movable.relabel f h inst)
    | .arityMismatch expected found => .arityMismatch expected found
  relabel_id e := by cases e <;> simp [Movable.relabel_id]
  relabel_relabel f f' h h' e := by cases e <;> simp [Movable.relabel_relabel]

namespace Relabeling

variable {ρ : Relabeling} {τ : Type} [Movable τ]

@[simp] theorem lo_move (c : Constraint τ) : (ρ.move c).lo = ρ.move c.lo := rfl
@[simp] theorem hi_move (c : Constraint τ) : (ρ.move c).hi = ρ.move c.hi := rfl
@[simp] theorem inst_move (c : Constraint τ) : (ρ.move c).inst = ρ.move c.inst := rfl
@[simp] theorem origin_move (i : VarInfo τ) : (ρ.move i).origin = ρ.move i.origin := rfl
@[simp] theorem constraint_move (i : VarInfo τ) : (ρ.move i).constraint = ρ.move i.constraint := rfl
@[simp] theorem suspended_move (i : VarInfo τ) : (ρ.move i).suspended = i.suspended := rfl
@[simp] theorem varLevel_move (i : VarInfo τ) : (ρ.move i).level = i.level := rfl

theorem addBound_move (side : Side) (bound : Ty) (i : VarInfo Ty) :
    VarInfo.addBound side (ρ.move bound) (ρ.move i) = ρ.move (i.addBound side bound) := by
  cases side <;> simp only [VarInfo.addBound, Constraint.addLo,
    Constraint.addHi, constraint_move, lo_move, hi_move, mem_move] <;> split
  all_goals simp [move, Movable.relabel]

end Relabeling

open Relabeling

/-! ## Steps of rules -/

/-- Contracts that the steps of rules have, those apart that write to variables. `P1 b` is the
contract of operations on the table that write no symbol before the `b`-th. -/
structure CheckWalk (sc : Scope) (ρ : Relabeling) (Fit : List SymbolId → List SymbolId → Prop)
    (P1 : Nat → PairContract SymM)
    (P : PairContract CheckM) : Prop extends Paired ρ CheckM P where
  tables (b : Nat) : TableWalk sc ρ b Fit (P1 b)
  onTable {α : Type} [Movable α] {n : Nat} {x y : SymM α}
    {Q : Nat → α → Prop} : (∀ b, P1 b n x y Q) → P n (onTable x) (onTable y) Q
  readTable_bind {α : Type} [Movable α] {n : Nat} {f f' : SymbolTable → CheckM α}
    {Q : Nat → α → Prop} : (∀ {m : Nat} t t', sc.ClosedAt m t →
    ρ.Reads t t' → n ≤ m → P m (f t) (f' t') Q) → P n (readTable >>= f) (readTable >>= f') Q
  exhausted {α : Type} [Movable α] {n : Nat} {Q : Nat → α → Prop} :
    P n (throw .exhausted) (throw .exhausted) Q
  varInfo? {n : Nat} {v : VarId} : sc.In n v → P n (varInfo? v) (varInfo? (ρ.move v)) sc.In
  instantiate {n : Nat} (cfg : Config) {ty : Ty} :
    sc.In n ty → P n (instantiate cfg ty) (instantiate cfg (ρ.move ty)) sc.In
  knownVars {n : Nat} (tvars : List Ty) : P n (return Conformance.knownVars (← get).vars tvars)
    (return Conformance.knownVars (← get).vars (ρ.move tvars)) fun _ r =>
    ∀ vs, r = .ok vs → ∀ v ∈ vs, Ty.var v ∈ tvars

/-- Queries of the two runs that answer alike. -/
structure Queries.Walks (sc : Scope) (ρ : Relabeling)
    (P : PairContract CheckM) (q q' : Queries) : Prop where
  sub {n : Nat} {l r : Ty} : sc.In n l → sc.In n r → ∀ depth : Depth,
    P n (q.sub l r depth) (q'.sub (ρ.move l) (ρ.move r) depth) sc.In
  same {n : Nat} {l r : Ty} : sc.In n l → sc.In n r →
    P n (q.same l r) (q'.same (ρ.move l) (ρ.move r)) sc.In

namespace Paired

variable {ρ : Relabeling} {P : PairContract CheckM}
  (h : Paired ρ CheckM P) {sc : Scope} {n : Nat} {x y z w : CheckM Bool}
include h

theorem andThen (hx : P n x y sc.In) (hz : ∀ k, n ≤ k → P k z w sc.In) :
    P n (do if !(← x) then return false else z) (do if !(← y) then return false else w) sc.In :=
  h.bind hx fun _ k hk _ => h.ite (by simp) h.bool (hz k hk)

theorem orElse (hx : P n x y sc.In) (hz : ∀ k, n ≤ k → P k z w sc.In) :
    P n (do if ← x then return true else z) (do if ← y then return true else w) sc.In :=
  h.bind hx fun _ k hk _ => h.ite (by simp) h.bool (hz k hk)

end Paired

section Rules

variable {sc : Scope} {ρ : Relabeling} {Fit : List SymbolId → List SymbolId → Prop}
  {P1 : Nat → PairContract SymM}
  {P : PairContract CheckM}

theorem CheckWalk.lift (h : CheckWalk sc ρ Fit P1 P) {α : Type} [Movable α] {n : Nat}
    {x y : SymM α} {Q : Nat → α → Prop} (hx : ∀ b, TableWalk sc ρ b Fit (P1 b) → P1 b n x y Q) :
    P n (CheckM.onTable x) (CheckM.onTable y) Q :=
  h.onTable fun b => hx b (h.tables b)

variable (h : CheckWalk sc ρ Fit P1 P) {cfg : Config}
  {q q' : Queries} (hq : q.Walks sc ρ P q') {n : Nat} {ty : Ty} {ls rs : List Ty}
include h

theorem typeSymbol_checks (hty : sc.In n ty) :
    P n (onTable (typeSymbol cfg.fuel ty)) (onTable (typeSymbol cfg.fuel (ρ.move ty))) sc.In :=
  h.lift fun _ w => typeSymbol_walks w hty

theorem isPackagePrefix_walks (hty : sc.In n ty) :
    P n (isPackagePrefix cfg ty) (isPackagePrefix cfg (ρ.move ty)) sc.In :=
  h.bind (typeSymbol_checks h hty) fun s _ _ _ => h.readTable_bind fun t t' _ reads _ =>
    h.ret (by simp [reads.get]) trivial

/-! ## References -/

theorem isFlexiblePrefix_walks (fuel : Nat) (hty : sc.In n ty) :
    P n (isFlexiblePrefix fuel ty) (isFlexiblePrefix fuel (ρ.move ty)) sc.In := by
  induction fuel generalizing ty n with
  | zero => exact h.exhausted
  | succ fuel ih =>
    cases ty with
    | single pre s =>
      rw [move_single]
      exact h.readTable_bind fun t t' _ reads hn =>
        h.ite (by rw [reads.flags]) h.bool (ih (hty.single_pre.mono hn))
    | var v =>
      refine h.bind (h.varInfo? hty.var_id) fun o m hm ho => ?_
      cases o with
      | none => exact h.bool
      | some info =>
        simp only [move_some, constraint_move, inst_move]
        cases hinst : info.constraint.inst with
        | none => exact h.bool
        | some inst => exact ih ((ho info rfl).2.2.2 inst hinst)
    | _ => exact h.bool

include hq

theorem sameAll_walks (hls : sc.In n ls) (hrs : sc.In n rs) :
    P n (q.sameAll ls rs) (q'.sameAll (ρ.move ls) (ρ.move rs)) sc.In := by
  refine h.ite (by simp) ?_ h.bool
  rw [zip_move]
  refine h.allM fun p mem m hm => ?_
  have hp := hls.zip hrs p mem
  exact hq.same (hp.1.mono hm) (hp.2.mono hm)

theorem subArgs_walks (depth : Depth) (hls : sc.In n ls) (hrs : sc.In n rs) (ps : List SymbolId) : P
    n (subArgs q depth ls rs ps) (subArgs q' depth (ρ.move ls) (ρ.move rs) (ρ.move ps)) sc.In := by
  induction ls generalizing rs ps n with
  | nil => cases rs <;> cases ps <;> exact h.bool
  | cons l ls ih =>
    cases rs with
    | nil => exact h.bool
    | cons r rs =>
      cases ps with
      | nil => exact h.bool
      | cons p ps =>
        rw [move_cons, move_cons, move_cons]
        refine h.readTable_bind fun {m} t t' _ reads hn => ?_
        simp only [reads.get, variance_move]
        have later := fun {k} (hk : m ≤ k) => ih (hls.tail.mono (Nat.le_trans hn hk))
          (hrs.tail.mono (Nat.le_trans hn hk)) ps
        -- the comparison that a contravariant parameter leaves out, then the other arguments
        have rest := fun k (hk : m ≤ k) => h.ite (c := ((t.get p).variance != .contravariant) =
          true) Iff.rfl (h.andThen (hq.sub (hls.head.mono (Nat.le_trans hn hk))
          (hrs.head.mono (Nat.le_trans hn hk)) depth) fun _ hk' =>
            later (Nat.le_trans hk hk')) (later hk)
        exact h.ite (by simp) (h.andThen (hq.sub (hrs.head.mono hn) (hls.head.mono hn) depth) rest)
          (rest m (Nat.le_refl _))

theorem argsConform_walks (depth : Depth) (hls : sc.In n ls)
    (hrs : sc.In n rs) (ps : List SymbolId) : P n (argsConform q depth ls rs ps)
    (argsConform q' depth (ρ.move ls) (ρ.move rs) (ρ.move ps)) sc.In :=
  h.ite (by simp) (subArgs_walks h hq depth hls hrs ps) h.bool

section Prefixes

variable {pre1 pre2 : Ty} (h1 : sc.In n pre1) (h2 : sc.In n pre2)
include h1 h2

theorem unifiable_walks : P n (unifiable cfg q pre1 pre2)
    (unifiable cfg q' (ρ.move pre1) (ρ.move pre2)) sc.In := by
  have both := fun {m} (hm : n ≤ m) => hq.same (h1.mono hm) (h2.mono hm)
  refine h.bind (isFlexiblePrefix_walks h _ h1) fun _ m hm _ => h.ite (by simp) ?_ (both hm)
  exact h.andThen (isFlexiblePrefix_walks h _ (h2.mono hm)) fun k hk => both (Nat.le_trans hm hk)

theorem sameEntity_walks (s1 s2 : SymbolId) : P n (sameEntity cfg q s1 pre1 s2 pre2)
    (sameEntity cfg q' (ρ.move s1) (ρ.move pre1) (ρ.move s2) (ρ.move pre2)) sc.In := by
  refine h.readTable_bind fun t t' _ reads hn => h.ite (by simp) ?_ ?_
  · exact h.ite (by rw [reads.owner, reads.flags, reads.flags])
      h.bool (hq.same (h1.mono hn) (h2.mono hn))
  · exact h.ite (by rw [reads.name, reads.name]) (unifiable_walks h hq (h1.mono hn) (h2.mono hn))
      h.bool

theorem subPrefix_walks : P n (subPrefix q pre1 pre2)
    (subPrefix q' (ρ.move pre1) (ρ.move pre2)) sc.In :=
  h.ite (by simp) h.bool (hq.sub h1 h2 _)

theorem constructorConforms_walks (s1 s2 : SymbolId)
    (depth : Depth) : P n (constructorConforms cfg q pre1 s1 pre2 s2 depth)
    (constructorConforms cfg q' (ρ.move pre1) (ρ.move s1) (ρ.move pre2) (ρ.move s2) depth)
    sc.In := by
  refine h.readTable_bind fun t t' _ reads hn => h.ite
    (by simp) ?_ (h.ite (by simp [reads.get]) ?_ h.bool)
  · exact h.ite (by simp [reads.get, reads.flags]) h.bool (hq.sub (h1.mono hn) (h2.mono hn) depth)
  · refine h.orElse (unifiable_walks h hq (h1.mono hn) (h2.mono hn)) fun k hk => ?_
    have hk := Nat.le_trans hn hk
    exact h.ite (by simp [reads.get]) (subPrefix_walks h hq (h1.mono hk) (h2.mono hk)) h.bool

end Prefixes

section Inequivalence

omit hq

variable (hd : ∀ {n : Nat} {l r : Ty}, sc.In n l → sc.In n r →
  P n (speculate (q.same l r)) (speculate (q'.same (ρ.move l) (ρ.move r))) sc.In)
include hd

theorem different_walks {l r : Ty} (hl : sc.In n l) (hr : sc.In n r) :
    P n (q.different l r) (q'.different (ρ.move l) (ρ.move r)) sc.In :=
  h.bind (hd hl hr) fun _ _ _ _ => h.bool

theorem differentConstructor_walks {ty1 ty2 : Ty} (h1 : sc.In n ty1) (h2 : sc.In n ty2) : P n
    (differentConstructor q ty1 ty2) (differentConstructor q' (ρ.move ty1) (ρ.move ty2)) sc.In := by
  cases ty1 with
  | ref pre1 s1 args1 =>
    cases ty2 with
    | ref pre2 s2 args2 =>
      rw [move_ref, move_ref]
      exact h.ite (by simp) h.bool (different_walks h hd h1.ref_pre h2.ref_pre)
    | _ => exact h.bool
  | _ => exact h.bool

end Inequivalence

/-! ## Writing to a variable -/

omit h in
theorem checkAgainst_walks (side : Side) {target : Ty}
    (hty : sc.In n ty) (htarget : sc.In n target) : P n (checkAgainst q side ty target)
    (checkAgainst q' side (ρ.move ty) (ρ.move target)) sc.In := by
  cases side with
  | lower => exact hq.sub hty htarget _
  | upper => exact hq.sub htarget hty _

omit hq in
/-- The bound that is entered is the type itself or an extreme one. -/
theorem boundFor_walks (hty : sc.In n ty) : P n (boundFor cfg ty)
    (boundFor cfg (ρ.move ty)) fun _ bound =>
    bound = ty ∨ bound = Known.anyType ∨ bound = Known.nothingType := by
  refine h.bind (typeSymbol_checks h hty) fun s m hm _ => h.ite (by simp) ?_ (h.ite (by simp) ?_ ?_)
  · exact h.pure (by simp) fun _ _ => .inr (.inl rfl)
  · exact h.pure (by simp) fun _ _ => .inr (.inr rfl)
  · exact h.pure rfl fun _ _ => .inl rfl

theorem registerBound_of_write {side : Side} {v : VarId}
    (hv : sc.In n v) (hty : sc.In n ty) (hw : ∀ {m : Nat} {bound : Ty}, n ≤ m →
    sc.In m bound → P m (updateVar v (VarInfo.addBound side bound))
      (updateVar (ρ.move v) (VarInfo.addBound side (ρ.move bound))) fun _ _ => True) :
    P n (registerBound cfg q side v ty) (registerBound cfg q' side (ρ.move v) (ρ.move ty))
      sc.In := by
  refine h.bind (h.varInfo? hv) fun o m hm ho => ?_
  cases o with
  | none => exact h.bool
  | some info =>
    have hinfo := ho info rfl
    have hty := hty.mono hm
    simp only [move_some, constraint_move, inst_move, origin_move, suspended_move, varLevel_move]
    refine h.ite (by simp) (checkAgainst_walks hq side hty hinfo.1) ?_
    cases hinst : info.constraint.inst with
    | some inst => exact checkAgainst_walks hq side hty (hinfo.2.2.2 inst hinst)
    | none =>
      refine h.readTable_bind fun t t' _ reads hn => h.ite (by rw [reads.isRelatable]) h.bool ?_
      refine h.bind (boundFor_walks h (hty.mono hn)) fun bound k hk hbound => ?_
      have inScope : sc.In k bound := by
        obtain rfl | rfl | rfl := hbound
        · exact hty.mono (Nat.le_trans hn hk)
        · exact sc.in_anyType
        · exact sc.in_nothingType
      exact h.bind (hw (by omega) inScope) fun _ _ _ _ => h.bool

theorem registerEquality_of_write {v : VarId} (hv : sc.In n v)
    (hty : sc.In n ty) (onLeft : Bool) (hw : ∀ {m : Nat}, n ≤ m →
    P m (updateVar v fun info => { info with constraint := info.constraint.setInst ty })
      (updateVar (ρ.move v) fun info =>
        { info with constraint := info.constraint.setInst (ρ.move ty) }) fun _ _ => True) :
    P n (registerEquality q v ty onLeft) (registerEquality q' (ρ.move v) (ρ.move ty) onLeft)
      sc.In := by
  refine h.bind (h.varInfo? hv) fun o m hm ho => ?_
  cases o with
  | none => exact h.bool
  | some info =>
    have hinfo := ho info rfl
    have hty := hty.mono hm
    simp only [move_some, constraint_move, inst_move,
      origin_move, suspended_move, varLevel_move, lo_move, hi_move]
    refine h.ite (by simp) (hq.same hty hinfo.1) ?_
    cases hinst : info.constraint.inst with
    | some inst =>
      have hinst := hinfo.2.2.2 inst hinst
      exact h.ite (by simp) (hq.same hinst hty) (hq.same hty hinst)
    | none =>
      refine h.readTable_bind fun {l} t t' _ reads hn => h.ite (by rw [reads.isRelatable]) h.bool ?_
      refine h.andThen (h.allM fun lo mem k hk => ?_) fun k hk =>
        h.andThen (h.allM fun hi mem k' hk' => ?_) fun k' hk' => ?_
      · exact hq.sub (Scope.In.mono (hinfo.2.1 lo mem) (by omega)) (hty.mono (by omega)) _
      · exact hq.sub (hty.mono (by omega)) (Scope.In.mono (hinfo.2.2.1 hi mem) (by omega)) _
      · exact h.bind (hw (by omega)) fun _ _ _ _ => h.bool

end Rules

end Conformance

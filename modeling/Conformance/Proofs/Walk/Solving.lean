import Conformance.Proofs.Attains
import Conformance.Proofs.Walk.Checks

/-! # Bounds of lists of types and solved groups, run twice -/

namespace Conformance

open CheckM Relabeling

instance : Movable Nat := ⟨fun _ _ n => n, fun _ => rfl, fun _ _ _ _ _ => rfl⟩

instance : Movable Variance := ⟨fun _ _ v => v, fun _ => rfl, fun _ _ _ _ _ => rfl⟩

instance : Movable Progress := ⟨fun _ _ p => p, fun _ => rfl, fun _ _ _ _ _ => rfl⟩

instance : Scoped Unknown where
  inScope sc n u := sc.In n u.var ∧ sc.In n u.tparam
  mono hnm h := ⟨h.1.mono hnm, h.2.mono hnm⟩

instance : Movable Unknown where
  relabel f h u := { u with var := h u.var, tparam := f u.tparam }
  relabel_id _ := rfl
  relabel_relabel _ _ _ _ _ := rfl

instance : Movable SolveGroup where
  relabel f h g := { g with unknowns := Movable.relabel f h g.unknowns }
  relabel_id g := by simp [Movable.relabel_id]
  relabel_relabel f f' h h' g := by simp [Movable.relabel_relabel]

namespace Relabeling

variable {ρ : Relabeling} {α : Type} [Movable α]

theorem eraseDups_move [BEq α] [LawfulBEq α] (as : List α) :
    (ρ.move as).eraseDups = ρ.move as.eraseDups := by
  induction h : as.length using Nat.strongRecOn generalizing as with
  | ind n ih =>
    cases as with
    | nil => rfl
    | cons a as =>
      have shorter : (as.filter fun b => !b == a).length < n := by
        rw [← h]
        exact Nat.lt_succ_of_le (List.length_filter_le _ _)
      have others : (ρ.move as).filter (fun b => !b == ρ.move a) =
        ρ.move (as.filter fun b => !b == a) :=
        move_filter (fun b => by simp) as
      rw [move_cons, List.eraseDups_cons, List.eraseDups_cons,
        others, ih _ shorter _ rfl, move_cons]

theorem zipIdx_move (as : List α) (n : Nat) : (ρ.move as).zipIdx n = ρ.move (as.zipIdx n) := by
  rw [move_list, List.zipIdx_map]
  rfl

theorem argsOf_move (n : Nat) (ty : Ty) : argsOf n (ρ.move ty) = ρ.move (argsOf n ty) := by
  cases ty with
  | ref pre s args =>
    rw [move_ref]
    by_cases length : args.length = n <;> simp [argsOf, length]
  | _ => rfl

theorem mapM_argsOf_move (n : Nat) (types : List Ty) :
    (ρ.move types).mapM (argsOf n) = ρ.move (types.mapM (argsOf n)) := by
  induction types with
  | nil => rfl
  | cons ty types ih =>
    rw [move_cons, List.mapM_cons, List.mapM_cons, argsOf_move, ih]
    cases argsOf n ty with
    | none => rfl
    | some args => cases types.mapM (argsOf n) <;> rfl

@[simp] theorem var_move (u : Unknown) : (ρ.move u).var = ρ.move u.var := rfl
@[simp] theorem tparam_move (u : Unknown) : (ρ.move u).tparam = ρ.move u.tparam := rfl
@[simp] theorem unknowns_move (g : SolveGroup) : (ρ.move g).unknowns = ρ.move g.unknowns := rfl

theorem upwards_move (g : SolveGroup) (u : Unknown) : (ρ.move g).upwards (ρ.move u) = g.upwards u :=
    rfl

theorem tparams_moveGroup (g : SolveGroup) : (ρ.move g).tparams = ρ.move g.tparams :=
  move_map tparam_move g.unknowns

theorem tvars_moveGroup (g : SolveGroup) : (ρ.move g).tvars = ρ.move g.tvars := by
  have vars : ∀ u : Unknown, Ty.var (ρ.move u).var = ρ.move (Ty.var u.var) := fun _ => rfl
  exact move_map vars g.unknowns

@[simp] theorem move_progress (progress : List Progress) : ρ.move progress = progress :=
    List.map_id progress

theorem Reads.boundTowards {t t' : SymbolTable} (h : ρ.Reads t t') (up : Bool) (p : SymbolId) :
    boundTowards t' up (ρ.move p) = ρ.move (Conformance.boundTowards t up p) := by
  simp only [Conformance.boundTowards, h.boundsOf, fst_move, snd_move]
  split <;> rfl

theorem Reads.boundAgainst {t t' : SymbolTable} (h : ρ.Reads t t') (up : Bool) (p : SymbolId) :
    boundAgainst t' up (ρ.move p) = ρ.move (Conformance.boundAgainst t up p) := by
  simp only [Conformance.boundAgainst, h.boundsOf, fst_move, snd_move]
  split <;> rfl

end Relabeling

namespace Scope.ClosedAt

variable {sc : Scope} {n : Nat} {t : SymbolTable} (ht : sc.ClosedAt n t)
  {p : SymbolId} (hp : sc.In n p) (up : Bool)
include ht hp

theorem boundTowards : sc.In n (boundTowards t up p) := by
  unfold Conformance.boundTowards
  split
  · exact (ht.boundsOf hp).2
  · exact (ht.boundsOf hp).1

theorem boundAgainst : sc.In n (boundAgainst t up p) := by
  unfold Conformance.boundAgainst
  split
  · exact (ht.boundsOf hp).1
  · exact (ht.boundsOf hp).2

end Scope.ClosedAt

section KnownVars

variable {tvars : List Ty} {vs : List VarId} {vars : VarLog Ty}

theorem eq_of_knownVars (h : knownVars vars tvars = .ok vs) :
    tvars = vs.map .var ∧ ∀ v ∈ vs, vars.contains v = true := by
  induction tvars generalizing vs with
  | nil =>
    cases h
    simp
  | cons ty rest ih =>
    cases ty with
    | var w =>
      rw [knownVars] at h
      split at h
      · rename_i known
        cases hrest : knownVars vars rest with
        | error e =>
          rw [hrest] at h
          cases h
        | ok ws =>
          rw [hrest] at h
          cases h
          obtain ⟨rfl, others⟩ := ih hrest
          exact ⟨rfl, List.forall_mem_cons.2 ⟨known, others⟩⟩
      · cases h
    | _ => cases h

theorem mem_of_knownVars (h : knownVars vars tvars = .ok vs) :
    ∀ v ∈ vs, Ty.var v ∈ tvars := by
  rw [(eq_of_knownVars h).1]
  exact fun v mem => List.mem_map.2 ⟨v, mem, rfl⟩

end KnownVars

theorem onTable_bind {α β : Type} (x : SymM α) (f : α → SymM β) :
    (onTable x >>= fun a => onTable (f a)) = onTable (x >>= f) := by
  funext s
  show EStateM.bind (onTable x) (fun a => onTable (f a)) s = _
  unfold EStateM.bind onTable
  rw [EStateM.run, EStateM.run, show (x >>= f) s.table = EStateM.bind x f s.table from rfl,
    EStateM.bind]
  cases x s.table <;> rfl

section Rules

variable {sc : Scope} {ρ : Relabeling} {Fit : List SymbolId → List SymbolId → Prop}
  {P1 : Nat → PairContract SymM} {P : PairContract CheckM} (h : CheckWalk sc ρ Fit P1 P)
  {cfg : Config} {q q' : Queries} (hq : q.Walks sc ρ P q') {n : Nat} {types : List Ty}
include h

/-! ## Bounds of lists -/

section Bounds

/-- Elements are dropped or added one at a time, whichever way conformance is read. -/
theorem elements_walks {below below' : Ty → Ty → CheckM Bool}
    (hb : ∀ {k a b}, sc.In k a → sc.In k b → P k (below a b) (below' (ρ.move a) (ρ.move b)) sc.In)
    (htypes : sc.In n types) :
    P n (types.foldlM (fun out ty => do
        if ← out.anyM (below ty ·) then return out
        let kept ← out.filterM fun m => return !(← below m ty)
        return kept ++ [ty]) [])
      ((ρ.move types).foldlM (fun out ty => do
        if ← out.anyM (below' ty ·) then return out
        let kept ← out.filterM fun m => return !(← below' m ty)
        return kept ++ [ty]) []) sc.In := by
  refine h.foldlM (β := List Ty) sc.stable .nil fun out ty mem m hm hout => ?_
  have hty : sc.In m ty := (htypes ty mem).mono hm
  refine h.bind (h.anyM fun o mem k hk => hb (hty.mono hk) ((hout o mem).mono hk)) fun _ k hk _ =>
    h.ite (by simp) (h.ret rfl (hout.mono hk)) ?_
  refine h.bind (h.filterM fun o mem k' hk' => ?_) fun kept k' hk' hkept => h.ret (by simp) ?_
  · exact h.bind (hb ((hout o mem).mono (by omega)) (hty.mono (by omega))) fun _ _ _ _ =>
      h.pure rfl fun _ _ => trivial
  · have hkept : sc.In k' kept := fun o mem => (hout o (hkept o mem)).mono (by omega)
    exact hkept.append (.cons (hty.mono (by omega)) .nil)

theorem typesExcept_walks {bound : SymbolId} (hbound : bound.val < Known.count)
    (htypes : sc.In n types) : P n (typesExcept cfg bound types)
    (typesExcept cfg bound (ρ.move types)) sc.In := by
  refine h.bind (h.filterM fun ty mem k hk => ?_) fun kept k hk hkept =>
    h.ret (eraseDups_move kept) fun ty mem => ?_
  · refine h.bind (typeSymbol_checks h ((htypes ty mem).mono hk)) fun s _ _ _ =>
      h.pure ?_ fun _ _ => trivial
    exact congrArg (!·) (move_beq_known s hbound)
  · exact (htypes ty (hkept ty (List.mem_eraseDups.1 mem))).mono hk

theorem baseTypesAt_walks (cls : SymbolId) (htypes : sc.In n types) :
    P n (baseTypesAt cfg cls types) (baseTypesAt cfg (ρ.move cls) (ρ.move types)) sc.In := by
  induction types generalizing n with
  | nil => exact h.ret rfl (.some .nil)
  | cons ty rest ih =>
    refine h.bind (h.lift fun _ w => baseType_walks w htypes.head cls) fun base m hm hbase =>
      h.ite (by simp) (h.ret rfl .none) ?_
    refine h.bind (ih (htypes.tail.mono hm)) fun bases k hk hbases =>
      h.ret (by cases bases <;> rfl) fun row hrow => ?_
    obtain ⟨bases', rfl, rfl⟩ := Option.map_eq_some_iff.1 hrow
    exact .cons (hbase.mono hk) (hbases bases' rfl)

include hq

theorem glb_walks (htypes : sc.In n types) : P n (glb cfg q types)
    (glb cfg q' (ρ.move types)) sc.In := by
  refine h.bind (typesExcept_walks h (by decide) htypes) fun kept m hm hkept => ?_
  refine h.bind (elements_walks h (fun ha hb => hq.sub hb ha _) hkept) fun minimal k hk hminimal =>
    ?_
  match minimal with
  | [] => exact h.ret move_anyType.symm sc.in_anyType
  | [ty] => exact h.ret rfl hminimal.head
  | ty1 :: ty2 :: rest =>
    refine h.bind (h.lift fun _ w => commonOwner_walks w hminimal) fun owner k' hk' howner => ?_
    -- the class is entered and its info written by one operation on the table
    have merged : ∀ (owner : SymbolId) parents, (do
        let cls ← onTable (SymM.newRefinementClass owner)
        onTable (SymM.refinedType cls parents [])) =
          onTable (SymM.newRefinementClass owner >>= fun cls =>
          SymM.refinedType cls parents []) := fun _ _ => onTable_bind _ _
    show P k' (onTable (SymM.newRefinementClass owner) >>= fun cls =>
      onTable (SymM.refinedType cls _ [])) (onTable
      (SymM.newRefinementClass (ρ.move owner)) >>= fun cls => onTable (SymM.refinedType cls _ [])) _
    rw [merged, merged]
    refine h.lift fun b w => w.bind (w.enter howner _ _ _) fun cls k'' hk'' hcls => ?_
    exact refinedType_walks w hcls (hminimal.mono (Nat.le_trans hk' hk'')) .nil

omit h hq in
/-- Arguments that must agree are compared with the first one. -/
theorem mergeArg_cons (q : Queries) (merge : Variance → List Ty → CheckM Ty)
    (head : Ty) (others : List Ty) : mergeArg q .plain merge .invariant (head :: others) =
      do if ← others.allM (q.same head ·) then return some head else return none := rfl

section Merge

variable {merge merge' : Variance → List Ty → CheckM Ty}
  (hm : ∀ {k} v {args}, sc.In k args → P k (merge v args) (merge' v (ρ.move args)) sc.In)
include hm

theorem mergeArg_walks (v : Variance) {args : List Ty} (hargs : sc.In n args) :
    P n (mergeArg q .plain merge v args) (mergeArg q' .plain merge' v (ρ.move args)) sc.In := by
  cases v with
  | invariant =>
    cases args with
    | nil => exact h.ret rfl .none
    | cons head others =>
      rw [move_cons, mergeArg_cons, mergeArg_cons]
      refine h.bind (h.allM fun other mem k hk => ?_) fun _ k hk _ =>
        h.ite (by simp) ?_ (h.ret rfl .none)
      · exact hq.same (hargs.head.mono hk) ((hargs.tail other mem).mono hk)
      · exact h.ret rfl (.some (hargs.head.mono hk))
  | covariant => exact h.bind (hm _ hargs) fun _ _ _ hty => h.ret rfl (.some hty)
  | contravariant => exact h.bind (hm _ hargs) fun _ _ _ hty => h.ret rfl (.some hty)

theorem mergeArgs_walks (ps : List SymbolId) {rows : List (List Ty)}
    (hrows : sc.In n rows) : P n (mergeArgs q .plain merge ps rows)
    (mergeArgs q' .plain merge' (ρ.move ps) (ρ.move rows)) sc.In := by
  induction ps generalizing rows n with
  | nil => exact h.ret rfl (.some .nil)
  | cons p ps ih =>
    have heads : (ρ.move rows).filterMap List.head? = ρ.move (rows.filterMap List.head?) := by
      rw [move_list, List.filterMap_map, move_list, List.map_filterMap]
      exact congrArg (rows.filterMap ·) (funext fun row => head?_move row)
    have tails : (ρ.move rows).map List.tail = ρ.move (rows.map List.tail) :=
      move_map (fun row => by simp) rows
    have hheads : sc.In n (rows.filterMap List.head?) := by
      intro ty mem
      obtain ⟨row, hrow, hhead⟩ := List.mem_filterMap.1 mem
      exact hrows row hrow ty (List.mem_of_mem_head? hhead)
    have htails : sc.In n (rows.map List.tail) := by
      intro row mem
      obtain ⟨row', hrow', rfl⟩ := List.mem_map.1 mem
      exact fun ty hty => hrows row' hrow' ty (List.mem_of_mem_tail hty)
    rw [move_cons]
    refine h.readTable_bind fun t t' _ reads hn => ?_
    simp only [reads.get, variance_move, heads, tails]
    refine h.bind (mergeArg_walks h hq hm _ (hheads.mono hn)) fun arg k hk harg => ?_
    cases arg with
    | none => exact h.ret rfl .none
    | some arg =>
      refine h.bind (ih (htails.mono (by omega))) fun args k' hk' hargs =>
        h.ret (by cases args <;> rfl) fun row hrow => ?_
      obtain ⟨args', rfl, rfl⟩ := Option.map_eq_some_iff.1 hrow
      exact .cons ((harg arg rfl).mono hk') (hargs args' rfl)

omit h hq hm in
/-- Rows of arguments have the length asked for, one row for each type. -/
theorem rows_of_mapM {k : Nat} {rows : List (List Ty)} (h : types.mapM (argsOf k) = some rows) :
    List.Forall₂ (fun ty row => ∃ pre s, ty = .ref pre s row ∧ row.length = k) types rows := by
  induction types generalizing rows with
  | nil =>
    cases h
    exact .nil
  | cons ty types ih =>
    rw [List.mapM_cons] at h
    obtain ⟨row, hrow, h⟩ := Option.bind_eq_some_iff.1 h
    obtain ⟨rows', hrows', h⟩ := Option.bind_eq_some_iff.1 h
    cases h
    refine .cons ?_ (ih hrows')
    cases ty with
    | ref pre s args =>
      rw [argsOf] at hrow
      split at hrow
      · cases hrow
        exact ⟨pre, s, rfl, by assumption⟩
      · cases hrow
    | _ => cases hrow

omit h hq hm in
theorem argsOf_in {k : Nat} {rows : List (List Ty)}
    (htypes : sc.In n types) (hrows : types.mapM (argsOf k) = some rows) : sc.In n rows := by
  intro row mem
  obtain ⟨_, hty, _, _, rfl, -⟩ := exists_of_forall₂ (rows_of_mapM hrows) mem
  exact (htypes _ hty).ref_args

theorem sharedBaseTypeAt_walks (htypes : sc.In n types) (cls : SymbolId) :
    P n (sharedBaseTypeAt cfg q .plain merge types cls)
      (sharedBaseTypeAt cfg q' .plain merge' (ρ.move types) (ρ.move cls)) sc.In := by
  refine h.bind (baseTypesAt_walks h cls htypes) fun bases m hm' hbases => ?_
  match bases with
  | none => exact h.ret rfl .none
  | some [] => exact h.ret rfl .none
  | some (base :: bases) =>
    have hall : sc.In m (base :: bases) := hbases _ rfl
    simp only [move_some, move_cons, TakeFirst.plain, List.head?_cons, pure_bind]
    refine h.readTable_bind fun t t' _ reads hn =>
      h.ite (by simp [reads.tparams]) (h.ret rfl (.some (hall.head.mono hn))) ?_
    have rows := mapM_argsOf_move (ρ := ρ) (t.tparams cls).length (base :: bases)
    rw [move_cons] at rows
    rw [reads.tparams, length_move, rows]
    cases base with
    | ref pre s args =>
      cases hrows : (Ty.ref pre s args :: bases).mapM (argsOf (t.tparams cls).length) with
      | none => exact h.ret rfl .none
      | some rows =>
        have hbase := hall.head
        refine h.bind (mergeArgs_walks h hq hm (t.tparams cls) (argsOf_in (hall.mono hn) hrows))
          fun args k hk hargs => ?_
        refine h.ret ?_ fun ty hty => ?_
        · cases args with
          | none => rfl
          | some args => exact congrArg some (move_ref ..).symm
        · obtain ⟨args', rfl, rfl⟩ := Option.map_eq_some_iff.1 hty
          exact .ref (hbase.ref_pre.mono (by omega))
            (hbase.ref_sym.mono (by omega)) (hargs args' rfl)
    | _ => exact h.ret rfl .none

theorem sharedBaseType_walks (htypes : sc.In n types) :
    P n (sharedBaseType cfg q merge types) (sharedBaseType cfg q' merge' (ρ.move types)) sc.In := by
  cases types with
  | nil => exact h.ret rfl .none
  | cons first rest =>
    refine h.bind (h.lift fun _ w => widen_walks w htypes.head) fun wide m hm' hwide => ?_
    refine h.bind (h.lift fun _ w => baseClassesOf_walks w hwide) fun classes k hk _ => ?_
    refine h.readTable_bind fun t t' _ reads hn => ?_
    have candidates : (ρ.move classes).filter (fun c => !(t'.get c).isRefinementClass) =
        ρ.move (classes.filter fun c => !(t.get c).isRefinementClass) :=
        move_filter (fun c => by simp [reads.get]) classes
    rw [candidates, take_move]
    exact h.findSomeM? sc.stable fun cls _ k' hk' =>
      sharedBaseTypeAt_walks h hq hm (htypes.mono (by omega)) cls

theorem lubWith_walks (htypes : sc.In n types) :
    P n (lubWith cfg q merge types) (lubWith cfg q' merge' (ρ.move types)) sc.In := by
  refine h.bind (typesExcept_walks h (by decide) htypes) fun kept m hm' hkept => ?_
  refine h.bind (elements_walks h (fun ha hb => hq.sub ha hb _) hkept) fun maximal k hk hmaximal =>
    ?_
  match maximal with
  | [] => exact h.ret move_nothingType.symm sc.in_nothingType
  | [ty] => exact h.ret rfl hmaximal.head
  | ty1 :: ty2 :: rest =>
    refine h.bind (sharedBaseType_walks h hq hm hmaximal) fun shared _ _ hshared => ?_
    cases shared with
    | none => exact h.ret move_anyType.symm sc.in_anyType
    | some ty => exact h.ret rfl (hshared ty rfl)

end Merge

theorem lubUpTo_walks (k : Nat) (htypes : sc.In n types) :
    P n (lubUpTo cfg q k types) (lubUpTo cfg q' k (ρ.move types)) sc.In := by
  induction k generalizing types n with
  | zero =>
    refine lubWith_walks h hq (fun v _ _ => ?_) htypes
    split
    · exact h.ret move_anyType.symm sc.in_anyType
    · exact h.ret move_nothingType.symm sc.in_nothingType
  | succ k ih =>
    exact lubWith_walks h hq (fun _ _ hargs => h.ite (by simp) (ih hargs) (glb_walks h hq hargs))
      htypes

end Bounds

end Rules

/-! ## Groups of variables -/

/-- The contract of solving, whose errors are answers. -/
def Attempts (P : PairContract CheckM) {α : Type} [Movable α]
    (n : Nat) (x y : SolveM α) (Q : Nat → α → Prop) : Prop :=
  P n x.run y.run fun m r => ∀ a, r = .ok a → Q m a

section Attempts

variable {ρ : Relabeling} {P : PairContract CheckM}
  (h : Paired ρ CheckM P) {n : Nat} {α β : Type} [Movable α] [Movable β]
include h

theorem Paired.attempts : Paired ρ SolveM fun n x y Q => Attempts P n x y Q where
  pure same ha := h.pure (congrArg Except.ok same) fun k hk _ hb => by
    cases hb
    exact ha k hk
  bind hx hf := by
    refine h.bind hx fun r k hk hr => ?_
    cases r with
    | ok a => exact hf a k hk (hr a rfl)
    | error e => exact h.pure rfl fun _ _ _ hr => nomatch hr

theorem Paired.fails {Q : Nat → α → Prop} {e e' : SolveError Ty}
    (same : e' = ρ.move e) : Attempts P n (throw e : SolveM α) (throw e') Q :=
    h.pure (congrArg Except.error same) fun _ _ _ hr => nomatch hr

theorem Paired.fails_bind {Q : Nat → β → Prop} {e e' : SolveError Ty}
    (same : e' = ρ.move e) (f f' : α → SolveM β) :
    Attempts P n ((throw e : SolveM α) >>= f) ((throw e' : SolveM α) >>= f') Q :=
  h.attempts.bind (h.fails (Q := fun _ _ => False) same) fun _ _ _ hr => hr.elim

end Attempts

/-- Choose an instance for a variable and enter it. -/
def enterChoice (cfg : Config) (q : Queries) (g : SolveGroup)
    (depth : Depth) (u : Unknown) (progress : List Progress) :
    SolveM (List Progress) := do
  let inst ← chooseInst cfg q g depth u
  updateVar u.var fun info => { info with constraint := info.constraint.setInst inst }
  return progress

section Rules

variable {sc : Scope} {ρ : Relabeling} {Fit : List SymbolId → List SymbolId → Prop}
  {P1 : Nat → PairContract SymM} {P : PairContract CheckM}
  (h : CheckWalk sc ρ Fit P1 P) {cfg : Config} {q q' : Queries} (hq : q.Walks sc ρ P q')
  {n : Nat} {g : SolveGroup} {u : Unknown} {depth : Depth} {F : VarId → Prop}
include h

theorem CheckWalk.attempt {α : Type} [Movable α] [Scoped α] {x y : CheckM α}
    (hx : P n x y sc.In) : Attempts P n (liftM x : SolveM α) (liftM y : SolveM α) sc.In :=
    h.bind hx fun _ _ _ ha => h.attempts.ret rfl ha

theorem readTable_attempts {α : Type} [Movable α] {f f' : SymbolTable → SolveM α}
    {Q : Nat → α → Prop} (hf : ∀ {m : Nat} t t', sc.ClosedAt m t → ρ.Reads t t' → n ≤ m →
    Attempts P m (f t) (f' t') Q) : Attempts P n ((liftM readTable : SolveM SymbolTable) >>= f)
    ((liftM readTable : SolveM SymbolTable) >>= f') Q :=
  h.readTable_bind hf

/-- The variable that is solved is the one that declared bounds are added to. -/
theorem addDeclaredBounds_walks
      (hw : ∀ {m : Nat} (informative : Bool) (side : Side) {bound : Ty}, n ≤ m → sc.In m bound →
      P m (updateVar u.var fun info => if informative then info.addBound side bound else info)
        (updateVar (ρ.move u.var) fun info => if informative then
          info.addBound side (ρ.move bound) else info) sc.In)
    (hg : sc.In n g.unknowns) {bound : Ty} (hbound : sc.In n bound) :
    P n (addDeclaredBounds cfg g u bound)
      (addDeclaredBounds cfg (ρ.move g) (ρ.move u) (ρ.move bound)) sc.In := by
  have htvars : sc.In n g.tvars := hg.map fun u hu => .var hu.1
  simp only [addDeclaredBounds, Lanes.addDeclaredBounds,
    SolveGroup.lanes, pure_bind, unknowns_move, zipIdx_move]
  rw [tparams_moveGroup, tvars_moveGroup, upwards_move]
  refine h.bind (h.lift fun _ w => substTypes_walks
    w cfg.fuel g.tparams htvars _ bound (Nat.le_refl _) hbound) fun inst m hm hinst => ?_
  refine h.bind (typeSymbol_checks h (hbound.mono hm)) fun s m' hm' _ => ?_
  have informative : (if g.upwards u then ρ.move s != Known.any
        else ρ.move s != Known.nothing && ρ.move s != (ρ.move u).tparam) =
      if g.upwards u then s != Known.any else s != Known.nothing && s != u.tparam := by simp [bne]
  simp only [informative]
  refine h.bind (hw _ _ (by omega) (hinst.mono hm')) fun _ k hk _ =>
    h.forM fun (other, j) mem k' hk' =>
    h.ite (by simp) (h.pure rfl fun _ _ => trivial)
      (h.readTable_bind fun {k''} t t' ht reads hn => ?_)
  have hother := (hg other (List.fst_mem_of_mem_zipIdx mem)).mono (show n ≤ k'' by omega)
  rw [move_pair, tparam_move, reads.boundAgainst]
  refine h.bind (h.lift fun _ w => dealias_walks w (ht.boundAgainst hother.2 _))
    fun facing m1 hm1 hfacing => ?_
  refine h.bind (typeSymbol_checks h hfacing) fun s' m2 hm2 _ =>
    h.ite (by simp) ?_ (h.pure rfl fun _ _ => trivial)
  exact hw true _ (by omega) (.var hother.1)

include hq

theorem dependsOn_walks (up : Bool) {param bound : Ty} {other : SymbolId}
    (hparam : sc.In n param) (hother : sc.In n other) : P n (dependsOn q up param bound other)
    (dependsOn q' up (ρ.move param) (ρ.move bound) (ρ.move other)) sc.In := by
  refine h.readTable_bind fun t t' ht reads hn => h.ite (by rw [reads.mentionsSymbol]) h.bool ?_
  rw [reads.boundAgainst]
  exact hq.same (ht.boundAgainst (hother.mono hn) _) (hparam.mono hn)

theorem chooseInst_walks (depth : Depth) (hvar : sc.In n u.var) : Attempts
    P n (chooseInst cfg q g depth u) (chooseInst cfg q' (ρ.move g) depth (ρ.move u)) sc.In := by
  refine h.attempts.bind (h.attempt (h.varInfo? hvar)) fun o m hm ho => ?_
  cases o with
  | none => exact h.fails rfl
  | some info =>
    have hinfo := ho info rfl
    -- however it was chosen, the instance is looked at in the same way
    have checked : ∀ (inst : Ty) k, m ≤ k → sc.In k inst → Attempts P k (do
          let inst ← instantiate cfg inst
          if (← readTable).mentionsVar inst u.var then throw (.occursCheck u.var inst)
          return inst : SolveM Ty) (do
          let inst ← instantiate cfg (ρ.move inst)
          if (← readTable).mentionsVar inst (ρ.move u.var) then
            throw (.occursCheck (ρ.move u.var) inst)
          return inst : SolveM Ty) sc.In := by
      refine fun inst k _ hinst => h.attempts.bind
        (h.attempt (h.instantiate cfg hinst)) fun inst k' hk' hinst => ?_
      refine readTable_attempts h fun t t' _ reads hn =>
        h.attempts.ite (by rw [reads.mentionsVar]) (h.fails_bind rfl _ _) ?_
      exact h.attempts.ret rfl (hinst.mono hn)
    refine h.attempts.ite Iff.rfl ?_ ?_
    · exact h.attempts.bind (h.attempt (glb_walks h hq hinfo.2.2.1)) checked
    · exact h.attempts.bind (h.attempt (lubUpTo_walks h hq _ hinfo.2.1)) checked

omit h hq in
@[simp] theorem SolveGroup.lanes_positions (g : SolveGroup) :
    g.lanes.positions = g.unknowns.zipIdx := rfl

omit h hq in
/-- What solving does with an entry of a group. -/
theorem solveOne_succ (cfg : Config) (q : Queries)
    (g : SolveGroup) (depth : Depth) (n : Nat) (progress : List Progress)
    (u : Unknown) (i : Nat) : solveOne cfg q g depth (n + 1) progress (u, i) = (do
      if progress[i]? != some .unsolved then return progress
      if ((← varInfo? u.var).bind (·.constraint.inst)).isSome then return progress.set i .done
      let up := g.upwards u
      let t ← readTable
      let bound := boundTowards t up u.tparam
      let param := t.typeConstructor u.tparam
      let (progress, cyclic) ← g.unknowns.zipIdx.foldlM (fun (progress, cyclic) (other, j) => do
        if other.tparam == u.tparam then return (progress, cyclic)
        if !(← dependsOn q up param bound other.tparam) then return (progress, cyclic)
        return (← solveOne cfg q g depth n progress (other, j),
          cyclic || progress[j]? == some .inProgress))
        (progress.set i .inProgress, t.mentionsSymbol bound u.tparam)
      if !cyclic then addDeclaredBounds cfg g u bound
      enterChoice cfg q g depth u (progress.set i .done)) := rfl

/-- Solving writes to the variables of the g and to no others. -/
theorem solveOne_walks
      (hw : ∀ {m : Nat} {v : VarId} (informative : Bool) (side : Side) {bound : Ty}, sc.In m v →
      F v → sc.In m bound →
      P m (updateVar v fun info => if informative then info.addBound side bound else info)
        (updateVar (ρ.move v) fun info => if informative then
          info.addBound side (ρ.move bound) else info) sc.In)
    (hc : ∀ {m : Nat} (g : SolveGroup) {u : Unknown} (progress : List Progress), sc.In m u.var →
      F u.var → Attempts P m (enterChoice cfg q g depth u progress)
      (enterChoice cfg q' (ρ.move g) depth (ρ.move u) progress)
        fun _ _ => True)
    (k : Nat) (hg : sc.In n g.unknowns) (hfree : ∀ u ∈ g.unknowns, F u.var)
      (progress : List Progress)
    {u : Unknown × Nat} (hu : sc.In n u.1) (hfu : F u.1.var) :
    Attempts P n (solveOne cfg q g depth k progress u)
      (solveOne cfg q' (ρ.move g) depth k progress (ρ.move u)) fun _ _ => True := by
  have done : ∀ {m : Nat} (progress : List Progress), Attempts P m (pure progress)
    (pure progress) fun _ _ => True :=
    fun progress => h.attempts.pure (move_progress progress).symm fun _ _ => trivial
  induction k generalizing progress u n with
  | zero => exact done progress
  | succ k ih =>
    obtain ⟨u, i⟩ := u
    rw [move_pair]
    rw [solveOne_succ, solveOne_succ]
    refine h.attempts.ite Iff.rfl (done progress) ?_
    refine h.attempts.bind (h.attempt (h.varInfo? hu.1)) fun o m hm _ => ?_
    refine h.attempts.ite (by cases o <;> simp) (done _)
      (readTable_attempts h fun {m'} t t' ht reads hn => ?_)
    have hparam : sc.In m' u.tparam := hu.2.mono (by omega)
    rw [tparam_move, reads.boundTowards, reads.typeConstructor,
      upwards_move, unknowns_move, zipIdx_move]
    dsimp only
    rw [reads.mentionsSymbol]
    have settled : ∀ acc : List Progress × Bool, ρ.move acc = acc := fun (progress, cyclic) => by
      rw [move_pair, move_progress]
      rfl
    refine h.attempts.bind (α := List Progress × Bool)
      (R := fun _ _ => True) ?_ fun (progress, cyclic) k1 hk1 _ => ?_
    · refine h.attempts.foldlM_settled settled _ fun (progress, cyclic) (other, j) mem k1 hk1 => ?_
      have hother : other ∈ g.unknowns := List.fst_mem_of_mem_zipIdx mem
      refine h.attempts.ite (by simp) (h.attempts.pure (settled _).symm fun _ _ => trivial) ?_
      refine h.attempts.bind (h.attempt (dependsOn_walks h hq _ ((ht.typeConstructor hparam).mono
        hk1) ((hg other hother).2.mono (by omega)))) fun _ k2 hk2 _ => ?_
      refine h.attempts.ite (by simp) (h.attempts.pure (settled _).symm fun _ _ => trivial) ?_
      refine h.attempts.bind (ih (hg.mono (by omega)) progress (u := (other, j))
        ((hg other hother).mono (by omega)) (hfree other hother)) fun progress' _ _ _ =>
        h.attempts.pure ?_ fun _ _ => trivial
      rw [move_progress, settled]
      rfl
    · have chosen : ∀ k2, k1 ≤ k2 →
          Attempts P k2 (enterChoice cfg q g depth u (progress.set i .done)) (enterChoice cfg
          q' (ρ.move g) depth (ρ.move u) (progress.set i .done)) fun _ _ => True := fun k2 hk2 =>
        hc g _ (hu.1.mono (by omega)) (hfu)
      rw [settled]
      refine h.attempts.ite (by simp) ?_ (chosen k1 (Nat.le_refl _))
      exact h.attempts.bind
        (h.attempt (addDeclaredBounds_walks h (fun informative side _ hm hbound =>
        hw informative side (hu.1.mono (by omega)) (hfu) hbound)
          (hg.mono (by omega)) ((ht.boundTowards hparam _).mono hk1)))
        fun _ k2 hk2 _ => chosen k2 hk2

theorem checkedInst_walks {v : VarId} (hv : sc.In n v) :
    Attempts P n (checkedInst cfg q v) (checkedInst cfg q' (ρ.move v)) sc.In := by
  refine h.attempts.bind (h.attempt (h.varInfo? hv)) fun o m hm ho => ?_
  cases o with
  | none => exact h.fails rfl
  | some info =>
    have hinfo := ho info rfl
    simp only [move_some, constraint_move, inst_move]
    cases hinst : info.constraint.inst with
    | none => exact h.fails rfl
    | some inst =>
      have instantiated := fun {k} {ty : Ty} (hty : sc.In k ty) => h.attempt (h.instantiate cfg hty)
      refine h.attempts.bind (instantiated (hinfo.2.2.2 inst hinst)) fun inst m1 hm1 hinst => ?_
      refine h.attempts.bind (h.attempts.mapM sc.stable fun lo mem k hk =>
        instantiated ((hinfo.2.1 lo mem).mono (by omega))) fun los m2 hm2 hlos => ?_
      refine h.attempts.bind (h.attempts.mapM sc.stable fun hi mem k hk =>
        instantiated ((hinfo.2.2.1 hi mem).mono (by omega))) fun his m3 hm3 hhis => ?_
      have above : ∀ k, m3 ≤ k → Attempts P k (do
            if !(← (his.allM (q.sub inst · .unlimited) : CheckM Bool)) then
              throw (.boundsViolation v inst)
            return inst : SolveM Ty) (do
            if !(← ((ρ.move his).allM (q'.sub (ρ.move inst) · .unlimited) : CheckM Bool)) then
              throw (.boundsViolation (ρ.move v) (ρ.move inst))
            return ρ.move inst : SolveM Ty) sc.In := by
        refine fun k hk => h.attempts.bind (h.attempt (h.allM fun hi mem k' hk' =>
          hq.sub (hinst.mono (by omega)) (Scope.In.mono (hhis.2 hi mem) (by omega)) _))
          fun _ k' hk' _ => h.attempts.ite (by simp) (h.fails_bind rfl _ _) ?_
        exact h.attempts.ret rfl (hinst.mono (by omega))
      refine h.attempts.bind (h.attempt (h.allM fun lo mem k hk =>
        hq.sub (Scope.In.mono (hlos.2 lo mem) (by omega)) (hinst.mono (by omega)) _))
        fun _ k hk _ => h.attempts.ite (by simp) (h.fails_bind rfl _ _) (above k hk)

theorem withinBounds_walks {pre : Ty} (hpre : sc.In n pre) {owner : SymbolId}
    (howner : sc.In n owner) {tparams : List SymbolId} (htparams : sc.In n tparams)
    {targs : List Ty} (htargs : sc.In n targs) : P n (withinBounds cfg q pre owner tparams targs)
      (withinBounds cfg q' (ρ.move pre) (ρ.move owner) (ρ.move tparams) (ρ.move targs)) sc.In := by
  refine h.ite (by simp) ?_ h.bool
  rw [zip_move]
  refine h.allM fun (tparam, targ) mem m hm => ?_
  have hparam : sc.In n tparam := htparams tparam (List.of_mem_zip mem).1
  have harg : sc.In n targ := htargs targ (List.of_mem_zip mem).2
  rw [move_pair]
  -- how either bound is adapted
  have adapted : ∀ {k : Nat} {ty : Ty}, n ≤ k → sc.In k ty → P k (onTable do
        let seen ← if owner.isPresent then asSeenFrom cfg.fuel ty pre owner else pure ty
        substTypes cfg.fuel tparams targs seen) (onTable do
        let seen ← if (ρ.move owner).isPresent then
          asSeenFrom cfg.fuel (ρ.move ty) (ρ.move pre) (ρ.move owner)
          else pure (ρ.move ty)
        substTypes cfg.fuel (ρ.move tparams) (ρ.move targs) seen) sc.In := by
    refine fun {k ty} hk hty => h.lift fun b w => ?_
    have substituted := fun seen k' (hk' : k ≤ k') (hseen : sc.In k' seen) =>
      substTypes_walks w cfg.fuel tparams (htargs.mono hk) k' seen hk' hseen
    refine w.ite (by simp) ?_ ?_
    · exact w.bind (asSeenFrom_walks w cfg.fuel hty (hpre.mono hk) (howner.mono hk)) substituted
    · exact w.bind (w.ret rfl hty) substituted
  refine h.readTable_bind fun {l} t t' ht reads hn => ?_
  have bounds := ht.boundsOf (hparam.mono (show n ≤ l by omega))
  rw [reads.boundsOf]
  revert bounds
  obtain ⟨lo, hi⟩ := t.boundsOf tparam
  intro bounds
  rw [move_pair]
  refine h.bind (adapted (by omega) bounds.1) fun lo k hk hlo => ?_
  refine h.bind (adapted (by omega) (bounds.2.mono hk)) fun hi k' hk' hhi => ?_
  exact h.andThen (hq.sub (hlo.mono hk') (harg.mono (by omega)) _) fun k'' hk'' =>
    hq.sub (harg.mono (by omega)) (hhi.mono hk'') _

section Solve

variable (hs :
  ∀ {m : Nat} (g : SolveGroup) (k : Nat) (progress : List Progress) {u : Unknown × Nat}, sc.In
  m g.unknowns → (∀ w ∈ g.unknowns, F w.var) → u.1 ∈ g.unknowns → Attempts
  P m (solveOne cfg q g depth k progress u) (solveOne cfg q' (ρ.move g) depth k progress (ρ.move u))
    fun _ _ => True)
include hs

/-- Solving writes only the variables that it is given. -/
theorem solve_walks {tvars : List Ty} (htvars : ∀ v, Ty.var v ∈ tvars → sc.var v ∧ F v)
    {tparams : List SymbolId} (htparams : sc.In n tparams) (variances : List Variance)
    (upper : Bool) : Attempts P n (solve cfg q tvars tparams variances upper depth)
      (solve cfg q' (ρ.move tvars) (ρ.move tparams) variances upper depth) sc.In := by
  have found : Attempts P n (ExceptT.mk (return knownVars (← get).vars tvars))
      (ExceptT.mk (return knownVars (← get).vars (ρ.move tvars))) fun _ vs =>
      ∀ v ∈ vs, Ty.var v ∈ tvars := h.knownVars tvars
  refine h.attempts.ite (by simp) (h.fails_bind (by simp only [length_move]; rfl) _ _)
    (h.attempts.ite (by simp) (h.fails_bind (by simp only [length_move]; rfl) _ _) ?_)
  refine h.attempts.bind found fun vs m hm hvs => ?_
  have moved : ∀ f : VarId × SymbolId × Variance → Unknown, (∀ p, f p = ⟨p.1, p.2.1, p.2.2⟩) →
      ((ρ.move vs).zip ((ρ.move tparams).zip variances)).map
      f = ρ.move ((vs.zip (tparams.zip variances)).map f) := by
    intro f hf
    have kept : ρ.move variances = variances := List.map_id variances
    have made : ∀ p : VarId × SymbolId × Variance, f (ρ.move p) = ρ.move (f p) := fun p => by
      rw [hf, hf]
      rfl
    rw [← kept, zip_move, zip_move, kept]
    exact move_map made _
  rw [moved _ fun _ => rfl]
  generalize made : (vs.zip (tparams.zip variances)).map _ = unknowns
  have hunknowns : ∀ u ∈ unknowns, sc.In m u ∧ F u.var := by
    intro u mem
    obtain ⟨⟨var, tparam, variance⟩, hzip, rfl⟩ := List.mem_map.1 (made ▸ mem)
    have hvar := List.of_mem_zip hzip
    obtain ⟨hv, hfree⟩ := htvars var (hvs var hvar.1)
    exact ⟨⟨hv, (htparams tparam (List.of_mem_zip hvar.2).1).mono hm⟩, hfree⟩
  have start : (ρ.move unknowns).map (fun _ => Progress.unsolved) = unknowns.map fun _ =>
    Progress.unsolved := by
    rw [move_list, List.map_map]
    rfl
  dsimp only [SolveGroup.lanes_positions]
  rw [zipIdx_move, length_move, start]
  refine h.attempts.bind (h.attempts.foldlM_settled move_progress _ fun progress u mem k hk =>
    ?_) fun _ k hk _ => ?_
  · exact hs { unknowns, upper } _ progress (fun u mem => (hunknowns u mem).1.mono hk)
      (fun u mem => (hunknowns u mem).2) (List.fst_mem_of_mem_zipIdx mem)
  · refine h.attempts.imp sc.stable (h.attempts.mapM sc.stable fun v mem k' hk' => ?_)
      fun _ _ all => all.2
    exact checkedInst_walks h hq (htvars v (hvs v mem)).1

end Solve

end Rules

end Conformance

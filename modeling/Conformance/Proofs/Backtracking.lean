import Conformance.Proofs.Growth

/-! # What a failed alternative leaves behind

Only whole queries are transactions. A rule that compares components one by one and fails at a late
one has asked the earlier ones, and what these registered stays with the rule when it goes on to
another alternative. So a failed alternative moves the variables along a trail of the questions that
held within it, and it leaves them as they were if and only if none of these registered anything.
Comparison with an existential makes its variables outside of any question; it leaves at least
those. -/

namespace Conformance

open CheckM

/-- A question that a rule asks. -/
inductive Question where
  | sub (l r : Ty) (depth : Depth)
  | same (l r : Ty)

/-- A question that was answered `true`, with the states around it. -/
structure Held where
  before : CheckState
  question : Question
  after : CheckState

namespace Queries

variable (q : Queries)

def ask : Question → CheckM Bool
  | .sub l r depth => q.sub l r depth
  | .same l r => q.same l r

/-- From the first variables to the last by questions of one kind that held, each asked with the
variables that the one before it left. -/
inductive Trail (Asked : Question → Prop) : VarLog Ty → List Held → VarLog Ty → Prop
  | nil (v : VarLog Ty) : Trail Asked v [] v
  | cons {s s' : CheckState} {a : Question} {held : List Held} {w : VarLog Ty} : Asked a → q.ask
      a s = .ok true s' → Trail Asked s'.vars held w → Trail Asked s.vars (⟨s, a, s'⟩ :: held) w

variable {q} {Asked : Question → Prop} {u v w : VarLog Ty} {held held' : List Held}

theorem Trail.append (h : q.Trail Asked u held v) (h' : q.Trail Asked v held' w) :
    q.Trail Asked u (held ++ held') w := by
  induction h with
  | nil => exact h'
  | cons asked answer _ ih => exact .cons asked answer (ih h')

theorem Transactional.ask_atomic (hq : q.Transactional) (a : Question) : Atomic (q.ask a) := by
  cases a with
  | sub l r depth => exact hq.sub_atomic l r depth
  | same l r => exact hq.same_atomic l r

section Growth

variable (hq : InStep (fun x _ => Keeps Adds x) q q)
include hq

theorem ask_adds (a : Question) : Keeps Adds (q.ask a) := by
  cases a with
  | sub l r depth => exact hq.sub l r depth
  | same l r => exact hq.same l r

theorem Trail.grows (h : q.Trail Asked v held w) : v.Grows w := by
  induction h with
  | nil => exact .of_vars_eq rfl
  | @cons s s' a _ _ _ answer _ ih =>
    have step := (ask_adds hq a s).grows
    rw [after_ok answer] at step
    exact step.trans ih

/-- A trail comes back to where it began only if no question on it left the place. -/
theorem Trail.vars_eq_iff (h : q.Trail Asked v held w) :
    w.vars = v.vars ↔ ∀ a ∈ held, a.after.vars.vars = a.before.vars.vars := by
  induction h with
  | nil => simp
  | @cons s s' a _ w _ answer rest ih =>
    have step := (ask_adds hq a s).grows
    rw [after_ok answer] at step
    have stays : w.vars = s.vars.vars → s'.vars.vars = s.vars.vars := fun eq =>
      step.antisymm ((rest.grows hq).trans (.of_vars_eq eq.symm))
    rw [List.forall_mem_cons, ← ih]
    exact ⟨fun eq => ⟨stays eq, eq.trans (stays eq).symm⟩, fun ⟨first, others⟩ =>
      others.trans first⟩

end Growth

/-- Whatever the computation answers, it moves the variables along a trail. -/
def Traced (q : Queries) (Asked : Question → Prop) {α : Type} (x : CheckM α) : Prop :=
  ∀ s a s', x s = .ok a s' → ∃ held, q.Trail Asked s.vars held s'.vars

namespace Traced

variable {α β : Type}

theorem of_vars_eq {x : CheckM α} (hx : ∀ s a s', x s = .ok a s' → s'.vars = s.vars) :
    q.Traced Asked x := by
  intro s a s' h
  refine ⟨[], ?_⟩
  rw [hx s a s' h]
  exact .nil _

theorem pure (a : α) : q.Traced Asked (Pure.pure a) := by
  refine of_vars_eq fun s b s' h => ?_
  cases h
  rfl

theorem bind {x : CheckM α} {f : α → CheckM β} (hx : q.Traced Asked x)
    (hf : ∀ a, q.Traced Asked (f a)) : q.Traced Asked (x >>= f) := by
  intro s b s' h
  obtain ⟨a, s1, hx1, hf1⟩ := exists_of_bind h
  obtain ⟨held, first⟩ := hx s a s1 hx1
  obtain ⟨held', second⟩ := hf a s1 b s' hf1
  exact ⟨held ++ held', first.append second⟩

theorem onTable (x : SymM α) : q.Traced Asked (CheckM.onTable x) := by
  refine of_vars_eq fun s a s' h => ?_
  obtain ⟨t', -, rfl⟩ := exists_of_onTable h
  rfl

theorem readTable : q.Traced Asked CheckM.readTable := onTable get

theorem ask (hq : q.Transactional) {a : Question} (asked : Asked a) : q.Traced Asked (q.ask a) := by
  intro s b s' h
  cases b with
  | true => exact ⟨[⟨s, a, s'⟩], .cons asked h (.nil _)⟩
  | false =>
    have back := hq.ask_atomic a s
    rw [answer?_ok h, after_ok h] at back
    exact ⟨[], back (by simp) ▸ .nil _⟩

theorem allM {f : α → CheckM Bool} {xs : List α} (hf : ∀ a ∈ xs, q.Traced Asked (f a)) :
    q.Traced Asked (xs.allM f) := by
  induction xs with
  | nil => exact pure _
  | cons a as ih =>
    rw [List.forall_mem_cons] at hf
    refine bind hf.1 fun b => ?_
    cases b with
    | true => exact ih hf.2
    | false => exact pure _

end Traced

variable {cfg : Config} (hq : q.Transactional)
include hq

theorem subArgs_traced {depth : Depth} {ls rs : List Ty} (ps : List SymbolId)
    (asked : ∀ l r, (l, r) ∈ ls.zip rs → Asked (.sub l r depth) ∧ Asked (.sub r l depth)) :
    q.Traced Asked (subArgs q depth ls rs ps) := by
  induction ls generalizing rs ps with
  | nil => cases rs <;> cases ps <;> exact .pure _
  | cons l ls ih =>
    cases rs with
    | nil => exact .pure _
    | cons r rs =>
      cases ps with
      | nil => exact .pure _
      | cons p ps =>
        obtain ⟨forth, back⟩ := asked l r (by simp)
        have others : q.Traced Asked (subArgs q depth ls rs ps) :=
          ih ps fun l r mem => asked l r (List.mem_cons_of_mem _ mem)
        refine .bind .readTable fun t => ?_
        -- the comparison that both variances but contravariance ask for, then the other arguments
        have rest : q.Traced Asked (if (t.get p).variance != .contravariant then do
              if !(← q.sub l r depth) then return false
              subArgs q depth ls rs ps
            else subArgs q depth ls rs ps) := by
          split
          · refine .bind (.ask hq forth) fun b => ?_
            cases b with
            | true => exact others
            | false => exact .pure _
          · exact others
        show q.Traced Asked (if (t.get p).variance != .covariant then _ else _)
        split
        · refine .bind (.ask hq back) fun b => ?_
          cases b with
          | true => exact rest
          | false => exact .pure _
        · exact rest

theorem sameAll_traced {ls rs : List Ty} (asked : ∀ l r, (l, r) ∈ ls.zip rs → Asked (.same l r)) :
    q.Traced Asked (q.sameAll ls rs) := by
  unfold sameAll
  split
  · exact .allM fun pair mem => .ask hq (asked pair.1 pair.2 mem)
  · exact .pure _

theorem specializesMember_traced {ty : Ty} {s1 s2 : SymbolId} {depth : Depth}
    (asked : ∀ l r, Asked (.sub l r depth) ∧ Asked (.same l r)) :
    q.Traced Asked (specializesMember cfg q ty s1 s2 depth) := by
  refine .bind .readTable fun t => .bind (.onTable _) fun info2 => ?_
  split
  · refine .bind (.onTable _) fun info1 => ?_
    split
    · exact .pure _
    refine .bind (.ask hq (asked info1 info2).1) fun b => ?_
    split <;> exact .pure _
  split
  · split
    · exact .pure _
    refine .bind (.onTable _) fun member => .bind .readTable fun t => ?_
    refine .bind (.ask hq (asked _ member).1) fun b => ?_
    split
    · exact .pure _
    · exact .ask hq (asked member _).1
  split
  · split
    · exact .pure _
    · exact .bind (.onTable _) fun member => .ask hq (asked member info2).2
  · exact .pure _

end Queries

/-! ## Existentials -/

theorem freshVars_size {syms : List SymbolId} {tvars : List Ty} {s s' : CheckState}
    (h : (syms.mapM fun p => do freshVar ((← readTable).typeConstructor p) {} : CheckM (List Ty))
    s = .ok tvars s') :
    s'.vars.vars.size = s.vars.vars.size + syms.length := by
  induction syms generalizing tvars s with
  | nil =>
    rw [List.mapM_nil] at h
    cases h
    rfl
  | cons p ps ih =>
    rw [List.mapM_cons] at h
    obtain ⟨ty, s1, made, h⟩ := exists_of_bind h
    obtain ⟨tys, s2, others, h⟩ := exists_of_bind h
    have one : s1.vars.vars.size = s.vars.vars.size + 1 := by
      cases made
      show (UndoLog.fresh _ _ _ _).2.vars.size = _
      rw [UndoLog.vars_fresh, Array.size_push]
    cases h
    rw [ih others, one, List.length_cons]
    omega

section Existential

variable {cfg : Config} {q : Queries} (hq : q.Transactional)
  (adds : Queries.InStep (fun x _ => Keeps Adds x) q q)
  {ty body : Ty} {quantified : List SymbolId} {depth : Depth} {s s' : CheckState}

include adds in
theorem conformsToExistential_size {b : Bool} (h : conformsToExistential cfg q ty quantified
    body depth s = .ok b s') : s.vars.vars.size + quantified.length ≤ s'.vars.vars.size := by
  obtain ⟨fresh, s1, cloned, h1⟩ := exists_of_bind h
  obtain ⟨tvars, s2, made, rest⟩ := exists_of_bind h1
  obtain ⟨t', copied, rfl⟩ := exists_of_onTable (x := cloneSymbols cfg.fuel quantified) cloned
  have size := freshVars_size made
  rw [length_of_cloneSymbols copied] at size
  -- the comparison and the solving after it only add
  have since := since_sequenced s2
  rw [← after_ok rest]
  refine size ▸ (Since.grows ?_).size_le
  refine since.bind ((adds_lockstep.anyTable _).since s2) fun body => ?_
  refine since.bind ((adds_lockstep.anyTable _).since s2) fun body => ?_
  refine since.bind ((adds.sub _ _ _).since s2) fun _ => ite_rel (since.pure _) ?_
  refine since.bind ((adds_lockstep.solve adds (solveOne_adds adds) _ _ _ _ _).since s2)
    fun insts => ?_
  cases insts with
  | ok insts => exact (adds_lockstep.withinBounds adds _ _ _ _).since s2
  | error e => exact since.pure _

include hq in
theorem conformsToExistential_nil
    (h : conformsToExistential cfg q ty [] body depth s = .ok false s') : s'.vars = s.vars := by
  obtain ⟨fresh, s1, cloned, h⟩ := exists_of_bind h
  cases cloned
  obtain ⟨tvars, s2, made, h⟩ := exists_of_bind h
  cases made
  obtain ⟨body1, s3, renamed, h⟩ := exists_of_bind h
  obtain ⟨body2, s4, replaced, h⟩ := exists_of_bind h
  obtain ⟨t1, -, rfl⟩ := exists_of_onTable (x := substSym cfg.fuel [] [] body) renamed
  obtain ⟨t2, -, rfl⟩ := exists_of_onTable (x := substTypes cfg.fuel [] [] body1) replaced
  obtain ⟨b, s5, compared, h⟩ := exists_of_bind h
  cases b with
  | false =>
    cases h
    have back := hq.sub_atomic ty body2 depth _ (by rw [answer?_ok compared]; simp)
    rwa [after_ok compared] at back
  | true => cases h

end Existential

/-! ## Alternatives -/

/-- What a rule tries before it goes on to something else. -/
inductive Alternative where
  /-- Arguments of two references, by the variances of the parameters. -/
  | args (depth : Depth) (ls rs : List Ty) (ps : List SymbolId)
  /-- Arguments of two references, for equivalence. -/
  | equalArgs (ls rs : List Ty)
  /-- A member of `ty` against a member of a refinement. -/
  | member (ty : Ty) (found wanted : SymbolId) (depth : Depth)
  /-- Variables for the quantifiers of an existential. -/
  | existential (ty : Ty) (quantified : List SymbolId) (body : Ty) (depth : Depth)

namespace Alternative

def run (cfg : Config) (q : Queries) : Alternative → CheckM Bool
  | args depth ls rs ps => subArgs q depth ls rs ps
  | equalArgs ls rs => q.sameAll ls rs
  | member ty found wanted depth => specializesMember cfg q ty found wanted depth
  | existential ty quantified body depth => conformsToExistential cfg q ty quantified body depth

/-- The questions of an alternative that asks them one after the other and does nothing else. -/
def Asks : Alternative → Question → Prop
  | args depth ls rs _, a => ∃ l r, (l, r) ∈ ls.zip rs ∧ (a = .sub l r depth ∨ a = .sub r l depth)
  | equalArgs ls rs, a => ∃ l r, (l, r) ∈ ls.zip rs ∧ a = .same l r
  | member _ _ _ depth, a => ∃ l r, a = .sub l r depth ∨ a = .same l r
  | existential .., _ => False

/-- What an alternative that fails makes of the variables, and when that is nothing. -/
def Leaves (q : Queries) : Alternative → CheckState → CheckState → Prop
  | existential _ quantified _ _, s, s' =>
    s.vars.vars.size + quantified.length ≤ s'.vars.vars.size ∧
      (s'.vars.vars = s.vars.vars ↔ quantified = [])
  | a, s, s' => ∃ held, q.Trail a.Asks s.vars held s'.vars ∧
    (s'.vars.vars = s.vars.vars ↔ ∀ h ∈ held, h.after.vars.vars = h.before.vars.vars)

/-- The rule, begun in `s0`, tries the alternative in `s`. -/
inductive TriedBy (cfg : Config) (q : Queries) : Alternative →
    CheckM Bool → CheckState → CheckState → Prop
  | args {pre1 pre2 : Ty} {c1 c2 : SymbolId} {args1 args2 : List Ty}
      {depth : Depth} {s0 s : CheckState} : args1.length = args2.length ∧
      args1.length = (s0.table.tparams c1).length → constructorConforms cfg q pre1 c1
      pre2 c2 depth s0 = .ok true s → TriedBy cfg q (.args depth args1 args2 (s0.table.tparams c1))
        (refsConform cfg q pre1 c1 args1 pre2 c2 args2 depth) s0 s
  | equalArgs {pre1 pre2 : Ty} {c1 c2 : SymbolId} {args1 args2 : List Ty} {s0 s : CheckState} :
      Ty.ref pre1 c1 args1 ≠ .ref pre2 c2 args2 → sameEntity cfg q c1 pre1 c2 pre2 s0 = .ok true s →
      (args1.isEmpty && args2.isEmpty && !(s.table.tparams c1).isEmpty) = false → TriedBy
      cfg q (.equalArgs args1 args2) (sameStep cfg q (.ref pre1 c1 args1) (.ref pre2 c2 args2)) s0 s
  | member {ty : Ty} {earlier later : List SymbolId}
      {found wanted : SymbolId} {depth : Depth} {s0 s : CheckState} : (earlier.anyM fun m =>
      if m == wanted then return true else specializesMember cfg q ty m wanted depth) s0 =
        .ok false s → found ≠ wanted →
      TriedBy cfg q (.member ty found wanted depth) ((earlier ++ found :: later).anyM fun m =>
        if m == wanted then return true else specializesMember cfg q ty m wanted depth) s0 s
  | existential {ty body : Ty} {quantified : List SymbolId}
      {depth : Depth} {s : CheckState} : TriedBy cfg q (.existential ty quantified body depth)
      (rightPass cfg q ty (.exist quantified body) depth) s s

section Queries

variable {cfg : Config} {q : Queries} (adds : Queries.InStep (fun x _ => Keeps Adds x) q q)
  {a : Alternative} {s s' : CheckState} (failed : a.run cfg q s = .ok false s')
include adds failed

theorem leaves (hq : q.Transactional) : a.Leaves q s s' := by
  -- the alternatives that only ask
  have of_traced : q.Traced a.Asks (a.run cfg q) → ∃ held, q.Trail a.Asks s.vars held s'.vars ∧
      (s'.vars.vars = s.vars.vars ↔ ∀ h ∈ held, h.after.vars.vars = h.before.vars.vars) :=
      fun traced => by
    obtain ⟨held, trail⟩ := traced s false s' failed
    exact ⟨held, trail, trail.vars_eq_iff adds⟩
  cases a with
  | args depth ls rs ps =>
    exact of_traced (Queries.subArgs_traced hq ps fun l r mem =>
      ⟨⟨l, r, mem, .inl rfl⟩, ⟨l, r, mem, .inr rfl⟩⟩)
  | equalArgs ls rs => exact of_traced (Queries.sameAll_traced hq fun l r mem => ⟨l, r, mem, rfl⟩)
  | member ty found wanted depth =>
    exact of_traced (Queries.specializesMember_traced hq fun l r =>
      ⟨⟨l, r, .inl rfl⟩, ⟨l, r, .inr rfl⟩⟩)
  | existential ty quantified body depth =>
    have size := conformsToExistential_size adds failed
    refine ⟨size, fun eq => ?_, ?_⟩
    · rw [eq] at size
      exact List.eq_nil_of_length_eq_zero (by omega)
    · rintro rfl
      rw [conformsToExistential_nil hq failed]

/-- Nothing that the rule does afterwards takes back what the alternative left. -/
theorem TriedBy.grows {rule : CheckM Bool} {s0 : CheckState} (tried : a.TriedBy cfg q rule s0 s) :
    s'.vars.Grows (rule.after s0).vars := by
  have since := since_sequenced s'
  cases tried with
  | @args pre1 pre2 c1 c2 args1 args2 depth _ _ lengths constructor =>
    have last : Keeps Adds (rightRef cfg q (.ref pre1 c1 args1) pre2 c2 args2 depth) :=
      adds_lockstep.rightRef adds _ _ _ _ _
    have read : readTable s0 = .ok s0.table s0 := rfl
    refine grows_after_bind read (grows_after_bind constructor ?_)
    simp only [if_true, argsConform, if_pos lengths]
    refine grows_after_bind failed ?_
    refine Since.grows (ite_rel (since.pure _) (ite_rel ?_ (last.since s')))
    refine since.bind ((adds_lockstep.anyTable _).since s') fun base => ite_rel ?_ (last.since s')
    exact since.bind ((adds.sub _ _ _).since s') fun _ => ite_rel (since.pure _) (last.since s')
  | @equalArgs pre1 pre2 c1 c2 args1 args2 _ _ ne entity notRaw =>
    have shape : sameShape cfg q (.ref pre1 c1 args1) (.ref pre2 c2 args2) s0 = .ok none s' := by
      show (sameEntity cfg q c1 pre1 c2 pre2 >>= _) s0 = _
      rw [bind_ok entity]
      show (if args1.isEmpty && args2.isEmpty && !(s.table.tparams c1).isEmpty then pure (some true)
        else settledIf (q.sameAll args1 args2) : CheckM (Option Bool)) s = _
      rw [notRaw]
      exact bind_ok failed
    rw [sameStep, if_neg (by simp [ne, Ty.isPermissive]),
      if_neg (by simp [Ty.isPresent]), if_neg (by simp), if_neg (by simp)]
    refine grows_after_bind shape ?_
    exact Since.grows ((adds_lockstep.sameOtherwise adds (fun _ _ => adds_lockstep.anyTable _)
      (registerEquality_adds adds) _ _).since s')
  | @member ty earlier later found wanted depth _ _ none ne =>
    induction earlier generalizing s0 with
    | nil =>
      cases none
      have run : (if found ==
          wanted then pure true else specializesMember cfg q ty found wanted depth : CheckM Bool)
          s = .ok false s' := by
        rw [if_neg (by simpa using ne)]
        exact failed
      refine grows_after_bind
        run (Since.grows (since.anyM (fun m => ite_rel (since.pure _) ?_) later))
      exact (adds_lockstep.specializesMember adds _ _ _ _).since s'
    | cons m ms ih =>
      obtain ⟨b, s1, first, others⟩ := exists_of_bind none
      cases b with
      | true => cases others
      | false => exact grows_after_bind first (ih others)
  | @existential ty body quantified depth _ =>
    refine grows_after_bind failed ?_
    exact Since.grows ((adds_lockstep.finalPass adds _ _ _).since s')

end Queries

end Alternative

namespace Config

/-- A failed alternative leaves what the questions that held within it registered, and with an
existential the variables made for it; the rule that tried it takes none of that back. -/
theorem failed_alternative_leaves_what_held (cfg : Config) (n : Nat) (a : Alternative)
    (s s' : CheckState) (failed : a.run cfg (cfg.queriesUpTo n) s = .ok false s') :
    a.Leaves (cfg.queriesUpTo n) s s' ∧ ∀ rule s0, a.TriedBy cfg (cfg.queriesUpTo n) rule s0 s →
      s'.vars.Grows (rule.after s0).vars := by
  have adds := cfg.queriesUpTo_adds n
  exact ⟨a.leaves adds failed (cfg.queriesUpTo_transactional n), fun _ _ tried =>
    tried.grows adds failed⟩

/-- The alias `Pair[+A, +B] = Any`, with the identifier 24. -/
def pairs : SymbolTable := SymM.after (do
  let pair ← SymM.newAliasType Known.rootClass "Pair"
  let a ← SymM.newTypeParam pair "A" .covariant
  let b ← SymM.newTypeParam pair "B" .covariant
  modify fun t => (t.setTParams pair [a, b]).setInfo pair Known.anyType) .initial

/-- A checker over `pairs` with one open variable. -/
def pairsState : CheckState :=
  { CheckState.fresh {} pairs 0 #[] with
    vars := { vec := { values := #[{ origin := Known.anyType, level := 0 }] } } }

def pairOf (args : List Ty) : Ty := .ref (.this Known.rootClass) ⟨24⟩ args

/-- `Pair[v, Int] <: Pair[String, Boolean]` holds because both are `Any`. The arguments were tried
first: `v <: String` held, `Int <: Boolean` did not, and the bound stays. -/
theorem failed_arguments_leave_bound :
    let cfg : Config := ⟨{}, .typeConstraints, 8⟩
    let q := cfg.queriesUpTo 4
    let ls : List Ty := [.var ⟨0⟩, Known.scalaRef Known.int]
    let rs : List Ty := [Known.javaLangRef Known.string, Known.scalaRef Known.boolean]
    let pre : Ty := .this Known.rootClass
    let tried := (constructorConforms cfg q pre ⟨24⟩ pre ⟨24⟩ .unlimited).after pairsState
    let rule := refsConform cfg q pre ⟨24⟩ ls pre ⟨24⟩ rs .unlimited
    let a : Alternative := .args .unlimited ls rs (pairsState.table.tparams ⟨24⟩)
    let failed := (a.run cfg q).after tried
    a.TriedBy cfg q rule pairsState tried ∧ a.run cfg q tried = .ok false failed ∧
      rule.answer? pairsState = some true ∧ a.Leaves q tried failed ∧
        failed.vars.vars ≠ tried.vars.vars ∧
      failed.vars.Grows (rule.after pairsState).vars := by
  intro cfg q ls rs pre tried rule a failed
  have constructor : constructorConforms cfg q pre
    ⟨24⟩ pre ⟨24⟩ .unlimited pairsState = .ok true tried :=
    run_of_answer? (by decide +kernel)
  have fails : a.run cfg q tried = .ok false failed := run_of_answer? (by decide +kernel)
  have triedBy : a.TriedBy cfg q rule pairsState tried := .args (by decide +kernel) constructor
  obtain ⟨leaves, grows⟩ := cfg.failed_alternative_leaves_what_held 4 a tried failed fails
  exact ⟨triedBy, fails, by decide +kernel, leaves, by decide +kernel,
    grows rule pairsState triedBy⟩

/-- The same as a whole query: the alternative that succeeds, `Any <: Any`, registers nothing, and
the query ends with the bound `String` of the one that failed. -/
theorem query_keeps_bound_of_failed_arguments :
    let cfg : Config := ⟨{}, .typeConstraints, 8⟩
    let query := cfg.isSubtype (pairOf [.var ⟨0⟩, Known.scalaRef Known.int])
      (pairOf [Known.javaLangRef Known.string, Known.scalaRef Known.boolean])
    let expanded := cfg.isSubtype Known.anyType Known.anyType
    query.answer? pairsState = some true ∧ expanded.answer? pairsState = some true ∧
      (expanded.after pairsState).vars.vars = pairsState.vars.vars ∧
      (query.after pairsState).vars.vars = #[{
        origin := Known.anyType, level := 0, constraint :=
          { hi := [Known.javaLangRef Known.string] } }] := by
  decide +kernel

end Config

end Conformance

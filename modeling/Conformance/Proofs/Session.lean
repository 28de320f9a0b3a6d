import Conformance.Proofs.Balance

/-! # Sessions of a checker

Between the operations of a session a checker holds no lock, no snapshot, no entry of its guard, no
pending pair and no level of skolemization, whichever operations came before and whether they gave
an answer or failed.

Within an operation the guard keeps account of the live queries. An auditor is asked wherever a
query begins or ends, from outside and from within, and is told which queries are live. One that has
something to say only if the guard does not account for them has nothing to say: the audited run is
the run. -/

namespace Conformance

variable {s s' : CheckState}

/-- What a checker can be asked to do. -/
inductive Operation where
  | freshVar (origin : Ty) (constraint : Constraint Ty)
  | isSubtype (l r : Ty)
  | isSubtypeDepth (l r : Ty) (depth : Depth)
  | isSameType (l r : Ty)
  | isSameTypes (ls rs : List Ty)
  | isDifferentType (l r : Ty)
  | solve (tvars : List Ty) (tparams : List SymbolId) (variances : List Variance) (upper : Bool)
      (depth : Depth)
  | isWithinBounds (pre : Ty) (owner : SymbolId) (tparams : List SymbolId) (targs : List Ty)
  | specializesSym (ty : Ty) (s : SymbolId) (depth : Depth)
  | lub (types : List Ty)
  | glb (types : List Ty)
  | instantiate (ty : Ty)
  | suspend (v : VarId)
  | resume (v : VarId)
  | resetStats

namespace Operation

def Answer : Operation → Type
  | .freshVar .. | .lub _ | .glb _ | .instantiate _ => Ty
  | .solve .. => Except (SolveError Ty) (List Ty)
  | .suspend _ | .resume _ | .resetStats => Unit
  | _ => Bool

/-- The operation with the queries that it may ask. -/
def asking (cfg : Config) (q : Queries) : (op : Operation) → CheckM op.Answer
  | .freshVar origin constraint => CheckM.freshVar origin constraint
  | .isSubtype l r => q.sub l r .unlimited
  | .isSubtypeDepth l r depth => q.sub l r depth
  | .isSameType l r => q.same l r
  | .isSameTypes ls rs => q.sameAll ls rs
  | .isDifferentType l r => q.different l r
  | .solve tvars tparams variances upper depth =>
    (Conformance.solve cfg q tvars tparams variances upper depth).run
  | .isWithinBounds pre owner tparams targs => withinBounds cfg q pre owner tparams targs
  | .specializesSym ty s depth => specializes cfg q ty s depth
  | .lub types => Conformance.lub cfg q types
  | .glb types => Conformance.glb cfg q types
  | .instantiate ty => Conformance.instantiate cfg ty
  | .suspend v => CheckM.updateVar v ({ · with suspended := true })
  | .resume v => CheckM.updateVar v ({ · with suspended := false })
  | .resetStats => modify fun s => { s with guard := s.guard.resetStats }

/-- Does the operation set the flag of a variable? -/
def setsFlag : Operation → Bool
  | .suspend _ | .resume _ => true
  | _ => false

end Operation

namespace Config

variable (cfg : Config)

def run : (op : Operation) → CheckM op.Answer
  | .freshVar origin constraint => CheckM.freshVar origin constraint
  | .isSubtype l r => cfg.isSubtype l r
  | .isSubtypeDepth l r depth => cfg.isSubtypeDepth l r depth
  | .isSameType l r => cfg.isSameType l r
  | .isSameTypes ls rs => cfg.isSameTypes ls rs
  | .isDifferentType l r => cfg.isDifferentType l r
  | .solve tvars tparams variances upper depth => cfg.solveVars tvars tparams variances upper depth
  | .isWithinBounds pre owner tparams targs => cfg.isWithinBounds pre owner tparams targs
  | .specializesSym ty s depth => cfg.specializesSym ty s depth
  | .lub types => cfg.leastUpperBound types
  | .glb types => cfg.greatestLowerBound types
  | .instantiate ty => Conformance.instantiate cfg ty
  | .suspend v => modify fun s => { s with vars := s.vars.suspend v }
  | .resume v => modify fun s => { s with vars := s.vars.resume v }
  | .resetStats => modify fun s => { s with guard := s.guard.resetStats }

/-- The state after some operations, those that failed included. -/
def session (ops : List Operation) (s : CheckState) : CheckState :=
  ops.foldl (fun s op => (cfg.run op).after s) s

theorem run_eq (op : Operation) (s : CheckState) :
    cfg.run op s = op.asking cfg (cfg.queriesUpTo (levelsLeft s)) s := by
  cases op <;> rfl

theorem after_run (op : Operation) (s : CheckState) :
    (cfg.run op).after s = (op.asking cfg (cfg.queriesUpTo (levelsLeft s))).after s := by
  rw [CheckM.after, run_eq, CheckM.after]

end Config

/-- Operations are in step if their queries are, those apart that write to variables they are given,
and statistics, which only one operation takes back. -/
theorem Stepwise.operation {P : {α : Type} → CheckM α → CheckM α → Prop}
    (h : Stepwise P) (cfg : Config) {q q' : Queries} (hq : Queries.InStep P q q')
    {op : Operation} (hop : op ≠ .resetStats) (hset : op.setsFlag = false)
    (hs : ∀ tvars tparams variances upper depth, op = .solve tvars tparams variances upper depth →
      P (Conformance.solve cfg q tvars tparams variances upper depth).run (Conformance.solve cfg
        q' tvars tparams variances upper depth).run) : P (op.asking cfg q) (op.asking cfg q') := by
  cases op with
  | freshVar origin constraint => exact h.freshVar _ _
  | isSubtype l r => exact hq.sub _ _ _
  | isSubtypeDepth l r depth => exact hq.sub _ _ _
  | isSameType l r => exact hq.same _ _
  | isSameTypes ls rs => exact h.sameAll hq _ _
  | isDifferentType l r => exact h.different hq _ _
  | solve tvars tparams variances upper depth => exact hs _ _ _ _ _ rfl
  | isWithinBounds pre owner tparams targs => exact h.withinBounds hq _ _ _ _
  | specializesSym ty s depth => exact h.specializes hq _ _ _
  | lub types => exact h.lubUpTo hq _ _
  | glb types => exact h.glb hq _
  | instantiate ty => exact h.instantiate _
  | suspend v => cases hset
  | resume v => cases hset
  | resetStats => exact absurd rfl hop

/-- The same where any variable may be written to. -/
theorem Lockstep.operation {P : {α : Type} → CheckM α → CheckM α → Prop}
    (h : Lockstep P) (cfg : Config) {q q' : Queries}
    (hq : Queries.InStep P q q') (hw : ∀ v f, P (CheckM.updateVar v f) (CheckM.updateVar v f))
    {op : Operation} (hop : op ≠ .resetStats) : P (op.asking cfg q) (op.asking cfg q') := by
  cases hset : op.setsFlag with
  | false =>
    exact h.toStepwise.operation cfg hq hop hset fun _ _ _ _ _ _ =>
      h.solve hq (h.solveOne_of_writes hq hw) _ _ _ _ _
  | true =>
    cases op with
    | suspend v => exact hw _ _
    | resume v => exact hw _ _
    | _ => cases hset

/-! ## Between operations -/

/-- Nothing is held. -/
structure CheckState.Quiescent (s : CheckState) : Prop where
  locks : s.vars.locks = 0
  snapshots : s.vars.openSnapshots = 0
  depth : s.guard.depth = 0
  pending : ∀ key, s.guard.pending.contains key = false
  level : s.skolems.depth = 0

namespace Config

open CheckM

variable (cfg : Config)

theorem run_brackets (op : Operation) (s : CheckState) :
    ((cfg.run op).after s).brackets = s.brackets := by
  by_cases hop : op = .resetStats
  · subst hop
    rfl
  · rw [after, run_eq]
    have h := balanced_lockstep.operation cfg (cfg.queriesUpTo_balanced (levelsLeft s))
      updateVar_balanced hop
    exact (h s).brackets

theorem session_brackets (ops : List Operation) (s : CheckState) :
    (cfg.session ops s).brackets = s.brackets := by
  induction ops generalizing s with
  | nil => rfl
  | cons op ops ih => exact (ih _).trans (cfg.run_brackets op s)

end Config

/-! ## Within an operation -/

/-- A query that the guard has admitted and that has not ended. -/
structure LiveQuery where
  op : Relation
  key : QueryKey
  /-- Nesting at which it was admitted, 1 if no other query was live. -/
  level : Nat
deriving DecidableEq

/-- The pair by which the guard can recognize a query that is asked again. -/
def Relation.tracked? : Relation → QueryKey → Option QueryKey
  | .subtype, pair => some pair
  | .sameType, _ => none

namespace Policy

variable (p : Policy)

/-- Is the pair of the query held as pending? -/
def tracks (q : LiveQuery) : Bool := q.op == .subtype && decide (p.pendingThreshold ≤ q.level)

/-- The guard holds exactly the queries `live`. -/
structure Accounts (g : Guard QueryKey) (live : List LiveQuery) : Prop where
  depth : g.depth = live.length
  bounded : g.depth ≤ p.maxDepth
  pending : ∀ key, g.pending.contains key = true ↔ ∃ q ∈ live, p.tracks q = true ∧ q.key = key

instance (g : Guard QueryKey) (live : List LiveQuery) : Decidable (p.Accounts g live) :=
  decidable_of_iff (g.depth = live.length ∧ g.depth ≤ p.maxDepth ∧
      (∀ key ∈ g.pending.elems, ∃ q ∈ live, p.tracks q = true ∧ q.key = key) ∧
      ∀ q ∈ live, p.tracks q = true → q.key ∈ g.pending.elems) <| by
    constructor
    · rintro ⟨depth, bounded, held, holds⟩
      refine ⟨depth, bounded, fun key => ⟨fun mem => held key (KeySet.contains_iff.1 mem), ?_⟩⟩
      rintro ⟨q, live, tracked, rfl⟩
      exact KeySet.contains_iff.2 (holds q live tracked)
    · rintro ⟨depth, bounded, pending⟩
      refine ⟨depth, bounded, fun key mem => (pending key).1 (KeySet.contains_iff.2 mem),
        fun q live tracked => ?_⟩
      exact KeySet.contains_iff.1 ((pending q.key).2 ⟨q, live, tracked, rfl⟩)

/-- As `Accounts`, under the limits of the policy and with the pairs in the order in which they
became pending. -/
structure Books (g : Guard QueryKey) (live : List LiveQuery) : Prop where
  trackFrom : g.trackFrom = p.pendingThreshold
  maxDepth : g.maxDepth = p.maxDepth
  depth : g.depth = live.length
  bounded : g.depth ≤ p.maxDepth
  pending : g.pending.elems = (live.filter p.tracks).map (·.key)

namespace Books

variable {p} {g g' : Guard QueryKey} {live : List LiveQuery}

theorem accounts (h : p.Books g live) : p.Accounts g live := by
  refine ⟨h.depth, h.bounded, fun key => ?_⟩
  rw [KeySet.contains_iff, h.pending]
  simp only [List.mem_map, List.mem_filter, and_assoc]

theorem of_balanced (h : p.Books s.guard live) (hs : CheckM.Balanced s s') :
    p.Books s'.guard live :=
  ⟨hs.trackFrom.trans h.trackFrom, hs.maxDepth.trans h.maxDepth, hs.depth.trans h.depth,
    hs.depth ▸ h.bounded, hs.pending.trans h.pending⟩

theorem enter (h : p.Books g live) {op : Relation} {pair : QueryKey}
    {entry : Entry QueryKey} (outcome : g.Outcome (op.tracked? pair) (.entered entry) g') :
    p.Books g' (⟨op, pair, live.length + 1⟩ :: live) := by
  have depth := h.depth
  have trackFrom := h.trackFrom
  have maxDepth := h.maxDepth
  generalize hkey : op.tracked? pair = key at outcome
  cases outcome with
  | untracked _ room shallow =>
    refine ⟨trackFrom, maxDepth, by simp [depth], ?_, ?_⟩
    · show g.depth + 1 ≤ p.maxDepth
      omega
    · have skipped : p.tracks ⟨op, pair, live.length + 1⟩ = false := by
        cases op with
        | sameType => rfl
        | subtype =>
          have below := shallow pair hkey.symm
          have shallow' : ¬ p.pendingThreshold ≤ live.length + 1 := by omega
          simp [tracks, shallow']
      rw [List.filter_cons_of_neg (by simp [skipped])]
      exact h.pending
  | tracked key room deep fresh =>
    obtain ⟨rfl, rfl⟩ : op = .subtype ∧ key = pair := by
      cases op with
      | subtype => exact ⟨rfl, (Option.some.inj hkey).symm⟩
      | sameType => cases hkey
    refine ⟨trackFrom, maxDepth, by simp [depth], ?_, ?_⟩
    · show g.depth + 1 ≤ p.maxDepth
      omega
    · have deep' : p.pendingThreshold ≤ live.length + 1 := by omega
      have kept : p.tracks ⟨.subtype, key, live.length + 1⟩ = true := by simp [tracks, deep']
      rw [List.filter_cons_of_pos kept, List.map_cons,
        ← h.pending, KeySet.elems_insert, if_neg fresh]

end Books

end Policy

/-- An onlooker that is told which queries are live, and does nothing as long as the guard accounts
for them. -/
structure Auditor (p : Policy) where
  check : List LiveQuery → CheckM Unit
  silent : ∀ live s, p.Accounts s.guard live → check live s = .ok () s

/-- Stops the run as soon as the guard does not account for the live queries. -/
def Auditor.strict (p : Policy) (alarm : Failure) : Auditor p where
  check live s := if p.Accounts s.guard live then .ok () s else .error alarm s
  silent _ _ h := if_pos h

namespace CheckM

/-- Run `check` before and after `x`, also when `x` fails. -/
def watched {α : Type} (check : CheckM Unit) (x : CheckM α) : CheckM α := do
  check
  let a ← tryCatch x fun e => do
    check
    throw e
  check
  return a

/-- A query that an auditor sees from outside and from within. -/
def audited (check : List LiveQuery → CheckM Unit)
    (live : List LiveQuery) (op : Relation) (key : QueryKey)
    (depth : Option Nat) (enter : Guard QueryKey → Admission QueryKey × Guard QueryKey)
    (x : CheckM Bool) : CheckM Bool :=
  watched (check live) <| reported op depth <| guarded enter <|
    watched (check (⟨op, key, live.length + 1⟩ :: live)) x

end CheckM

namespace Config

variable (cfg : Config)

/-- The queries with `n` levels of nesting left, asked while the queries `live` are. -/
def auditedUpTo (check : List LiveQuery → CheckM Unit) : Nat → List LiveQuery → Queries
  | 0, live =>
    { sub := fun l r depth => CheckM.audited check live .subtype (l, r) depth.remaining?
        (·.enter (l, r)) (return false)
      same := fun l r => CheckM.audited check live .sameType (l, r) none (·.enterUntracked)
        (return false) }
  | n + 1, live =>
    { sub := fun l r depth => CheckM.audited check live .subtype (l, r) depth.remaining?
        (·.enter (l, r)) <|
        subStep cfg (auditedUpTo check n (⟨.subtype, (l, r), live.length + 1⟩ :: live)) l r depth
      same := fun l r => CheckM.audited check live .sameType (l, r) none (·.enterUntracked) <|
        sameStep cfg (auditedUpTo check n (⟨.sameType, (l, r), live.length + 1⟩ :: live)) l r }

/-- An operation asked while no query is live, under the eyes of an auditor. -/
def auditedRun (auditor : Auditor cfg.policy) (op : Operation) : CheckM op.Answer := do
  op.asking cfg (cfg.auditedUpTo auditor.check (levelsLeft (← get)) [])

end Config

namespace CheckM

variable {α : Type} {p : Policy} {live : List LiveQuery} {x : CheckM α}

/-- With the books right for `live`, the two runs are one. -/
def Unseen (p : Policy) (live : List LiveQuery) {α : Type} (x y : CheckM α) : Prop :=
  Keeps Balanced x ∧ ∀ s, p.Books s.guard live → x s = y s

theorem unseen_lockstep (p : Policy) (live : List LiveQuery) : Lockstep (Unseen p live) where
  pure _ := ⟨Balanced.refl, fun _ _ => rfl⟩
  bind {_ _ x y f g} hx hf := by
    refine ⟨(Keeps.sequenced Balanced.refl Balanced.trans).bind (y := x) hx.1 (g := f) fun a =>
      (hf a).1, ?_⟩
    intro s books
    have first := hx.2 s books
    cases h : x s with
    | ok a s' =>
      have balanced := hx.1 s
      rw [after_ok h] at balanced
      rw [bind_ok h, bind_ok (first ▸ h)]
      exact (hf a).2 s' (books.of_balanced balanced)
    | error e s' => rw [bind_error h, bind_error (first ▸ h)]
  exhausted := ⟨Balanced.refl, fun _ _ => rfl⟩
  onTable {_ x} _ := ⟨balanced_lockstep.anyTable x, fun _ _ => rfl⟩
  anyTable x := ⟨balanced_lockstep.anyTable x, fun _ _ => rfl⟩
  readVars := ⟨Balanced.refl, fun _ _ => rfl⟩
  addBound v f _ := ⟨updateVar_balanced v f, fun _ _ => rfl⟩
  freshVar origin c := ⟨balanced_lockstep.freshVar origin c, fun _ _ => rfl⟩
  atDeeperLevel {_ x y} hx := by
    refine ⟨atDeeperLevel_balanced fun level => (hx level).1, fun s books => ?_⟩
    have inner := (hx s.skolems.enter.2.depth).2 { s with skolems := s.skolems.enter.2 } books
    rw [atDeeperLevel_run, atDeeperLevel_run]
    split
    · unfold ending
      rw [inner]
    · exact inner
  speculate {_ x y} hx := by
    refine ⟨balanced_lockstep.speculate (y := x) hx.1, fun s books => ?_⟩
    have inner := hx.2 (opened s) books
    show ending x (undone s) (opened s) = ending y (undone s) (opened s)
    unfold ending
    rw [inner]

theorem watched_ok {check : CheckM Unit} {a : α} (before : check s = .ok () s)
    (h : x s = .ok a s') (behind : check s' = .ok () s') : watched check x s = .ok a s' := by
  have caught : tryCatch x (fun e => check >>= fun _ => throw e) s = .ok a s' := by
    show EStateM.tryCatch x _ s = _
    rw [EStateM.tryCatch, h]
  rw [watched, bind_ok before, bind_ok caught, bind_ok behind]
  rfl

theorem watched_error {check : CheckM Unit} {e : Failure}
    (before : check s = .ok () s) (h : x s = .error e s') (behind : check s' = .ok () s') :
    watched check x s = .error e s' := by
  have caught : tryCatch x (fun e => check >>= fun _ => throw e) s = .error e s' := by
    show EStateM.tryCatch x _ s = _
    rw [EStateM.tryCatch, h]
    exact bind_ok behind
  rw [watched, bind_ok before, bind_error caught]

/-- A silent check is not noticed around a computation that keeps the books. -/
theorem watched_unseen (auditor : Auditor p) {y : CheckM α} (hx : Unseen p live x y) :
    Unseen p live x (watched (auditor.check live) y) := by
  refine ⟨hx.1, fun s books => ?_⟩
  have same := hx.2 s books
  have balanced := hx.1 s
  have before := auditor.silent live s books.accounts
  cases h : x s with
  | ok a s' =>
    rw [after_ok h] at balanced
    exact (watched_ok before (same ▸ h)
      (auditor.silent live s' (books.of_balanced balanced).accounts)).symm
  | error e s' =>
    rw [after_error h] at balanced
    exact (watched_error before (same ▸ h)
      (auditor.silent live s' (books.of_balanced balanced).accounts)).symm

theorem audited_unseen (auditor : Auditor p) (op : Relation) (pair : QueryKey)
    {enter : Guard.Entering} (he : Guard.Enters (op.tracked? pair) enter) (depth : Option Nat)
    {x y : CheckM Bool} (hx : Unseen p (⟨op, pair, live.length + 1⟩ :: live) x y) : Unseen p live
    (reported op depth (guarded enter x)) (audited auditor.check live op pair depth enter y) := by
  refine watched_unseen auditor ⟨query_balanced he hx.1 op depth, fun s books => ?_⟩
  have outcome := he s.guard
  rw [query_run, query_run]
  cases h : (enter s.guard).1 with
  | entered entry =>
    rw [h] at outcome
    have within : p.Books (admitted enter op depth s).guard
      (⟨op, pair, live.length + 1⟩ :: live) := by
      rw [admitted_guard]
      exact books.enter outcome
    have inner := (watched_unseen auditor hx).2 (opened (admitted enter op depth s)) within
    simp only [probe_run, inner]
  | cycle => rfl
  | tooDeep => rfl

end CheckM

namespace Config

open CheckM

variable (cfg : Config)

theorem queriesUpTo_unseen (auditor : Auditor cfg.policy)
    (n : Nat) (live : List LiveQuery) : Queries.InStep (Unseen cfg.policy live)
    (cfg.queriesUpTo n) (cfg.auditedUpTo auditor.check n live) := by
  induction n generalizing live with
  | zero =>
    exact ⟨fun l r d => audited_unseen auditor .subtype (l, r)
      (Guard.enters_enter (l, r)) _ ((unseen_lockstep _ _).pure _), fun l r => audited_unseen
      auditor .sameType (l, r) Guard.enters_enterUntracked _ ((unseen_lockstep _ _).pure _)⟩
  | succ n ih =>
    have writes : ∀ live v f, Unseen cfg.policy live (updateVar v f) (updateVar v f) :=
      fun _ v f => ⟨updateVar_balanced v f, fun _ _ => rfl⟩
    refine ⟨fun l r d => audited_unseen auditor .subtype (l, r) (Guard.enters_enter (l, r)) _ ?_,
      fun l r => audited_unseen auditor .sameType (l, r) Guard.enters_enterUntracked _ ?_⟩
    · have h := unseen_lockstep cfg.policy (⟨.subtype, (l, r), live.length + 1⟩ :: live)
      exact h.subStep (ih _) (h.solveOne_of_writes (ih _) (writes _)) l r d
    · have h := unseen_lockstep cfg.policy (⟨.sameType, (l, r), live.length + 1⟩ :: live)
      exact h.sameStep (ih _) (h.equality_of_writes (ih _) (writes _)) l r

/-- Between the operations of a session nothing is held, and within each of them the guard holds
exactly the live queries at every beginning and end of a query. -/
theorem session_quiescent (table : SymbolTable) (queries : Nat) (events : Array QueryEvent)
    (ops : List Operation) :
    let s := cfg.session ops (.fresh cfg.policy table queries events)
    s.Quiescent ∧ ∀ (op : Operation) (auditor : Auditor cfg.policy),
      cfg.auditedRun auditor op s = cfg.run op s := by
  intro s
  have brackets : s.brackets = (CheckState.fresh cfg.policy table queries events).brackets :=
    cfg.session_brackets ops _
  have depth : s.guard.depth = 0 := congrArg Brackets.depth brackets
  have pending : s.guard.pending.elems = [] := congrArg Brackets.pending brackets
  have books : cfg.policy.Books s.guard [] :=
    ⟨congrArg Brackets.trackFrom brackets, congrArg Brackets.maxDepth brackets, depth,
      depth ▸ Nat.zero_le _, pending⟩
  refine ⟨⟨congrArg Brackets.locks brackets, congrArg Brackets.snapshots brackets, depth, fun key =>
    ?_, congrArg Brackets.level brackets⟩, fun op auditor => ?_⟩
  · refine Bool.eq_false_iff.2 fun mem => ?_
    rw [KeySet.contains_iff, pending] at mem
    cases mem
  · rw [run_eq]
    show op.asking cfg (cfg.auditedUpTo auditor.check (levelsLeft s) []) s = _
    by_cases hop : op = .resetStats
    · subst hop
      rfl
    · have h := unseen_lockstep cfg.policy []
      exact ((h.operation cfg (cfg.queriesUpTo_unseen auditor (levelsLeft s) [])
        (fun v f => ⟨updateVar_balanced v f, fun _ _ => rfl⟩) hop).2 s books).symm

/-- A strict auditor has nothing to say about nested queries with pending pairs, and would stop them
if the guard had one level too many. -/
theorem strict_audit_of_nested_queries :
    let cfg : Config := ⟨{ pendingThreshold := 1 }, .typeConstraints, 2⟩
    let s := cfg.session [.freshVar Known.anyType {}, .isSameType (.var ⟨0⟩) (.const .null)]
      (.fresh cfg.policy .initial 0 #[])
    let l := Ty.bounds (.var ⟨0⟩) (.const .unit)
    let r := Ty.bounds (.const .null) (.const .unit)
    let audited : CheckM Bool := cfg.auditedRun (.strict cfg.policy .exhausted) (.isSubtype l r)
    audited s = cfg.isSubtype l r s ∧ audited.answer? s = some true ∧
      audited.answer? { s with guard := { s.guard with depth := 1 } } = none := by
  intro cfg s l r audited
  exact ⟨(cfg.session_quiescent .initial 0 #[] _).2 (.isSubtype l r) _, by decide +kernel,
    by decide +kernel⟩

end Config

end Conformance

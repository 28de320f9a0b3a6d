import Conformance.Proofs.Session

/-! # Events of outermost queries

The guard tells whether a query is outermost. One that is not reports nothing, whatever it asks in
turn. So the events of an operation are blocks, one for each query that the operation asks itself: a
start, and behind it an end unless the query failed. The guard counts every query, so the statistics
that the ends report go up from block to block. -/

namespace Conformance

open CheckM

/-- An attempt to enter is counted, and an entry makes the guard active. -/
theorem Guard.Outcome.counts {κ : Type} [DecidableEq κ] [Hashable κ] {g g' : Guard κ}
    {key : Option κ} {a : Admission κ} (h : g.Outcome key a g') : g.iterations < g'.iterations ∧
    g.cycles ≤ g'.cycles ∧ (a.isEntered = true → g'.isActive = true) := by
  cases h with
  | tooDeep => exact ⟨Nat.lt_succ_self _, Nat.le_refl _, nofun⟩
  | cycle => exact ⟨Nat.lt_succ_self _, Nat.le_succ _, nofun⟩
  | untracked | tracked =>
    exact ⟨Nat.lt_succ_self _, Nat.le_refl _, fun _ => decide_eq_true (Nat.succ_pos _)⟩

/-- What the end of a query reports. -/
structure QueryReport where
  result : Bool
  iterations : Nat
  cycles : Nat

/-- A query with its report; one that failed has none. -/
structure QueryBlock where
  op : Relation
  depth : Option Nat
  report? : Option QueryReport

namespace QueryBlock

/-- The start of a query and, if it gave an answer, its end, under one number. -/
def events (query : Nat) (b : QueryBlock) : List QueryEvent :=
  .start query b.op b.depth :: (b.report?.map fun r =>
    .finish query b.op r.result r.iterations r.cycles).toList

/-- Blocks one after the other, numbered on from `query`. -/
def eventsFrom (query : Nat) : List QueryBlock → List QueryEvent
  | [] => []
  | b :: bs => b.events query ++ eventsFrom (query + 1) bs

theorem eventsFrom_append (query : Nat) (bs bs' : List QueryBlock) :
    eventsFrom query (bs ++ bs') = eventsFrom query bs ++ eventsFrom (query + bs.length) bs' := by
  induction bs generalizing query with
  | nil => rfl
  | cons b bs ih =>
    rw [List.cons_append, eventsFrom, ih, eventsFrom,
      List.append_assoc, List.length_cons, Nat.add_assoc, Nat.add_comm 1]

/-- Iterations go up from report to report, and cycles do not go down. -/
def Ascending (bs : List QueryBlock) : Prop :=
  (bs.filterMap report?).Pairwise fun r r' => r.iterations < r'.iterations ∧ r.cycles ≤ r'.cycles

/-- Only the last block may be without a report, and only if no answer was given. -/
def Complete (bs : List QueryBlock) (answered : Bool) : Prop :=
  (∀ b ∈ bs.dropLast, b.report?.isSome = true) ∧
    (answered = true → ∀ b ∈ bs, b.report?.isSome = true)

end QueryBlock

open QueryBlock

/-- What reports are made from. -/
def CheckState.report (s : CheckState) : Array QueryEvent × Nat × Guard QueryKey :=
    (s.events, s.queries, s.guard)

/-- From the first state to the second exactly the events of `bs` were added, numbered on. -/
structure CheckState.Tells (s : CheckState) (bs : List QueryBlock) (s' : CheckState) : Prop where
  events : s'.events.toList = s.events.toList ++ eventsFrom s.queries bs
  queries : s'.queries = s.queries + bs.length

theorem CheckState.Tells.append {s1 s2 s3 : CheckState} {bs bs' : List QueryBlock}
    (h : s1.Tells bs s2) (h' : s2.Tells bs' s3) : s1.Tells (bs ++ bs') s3 :=
  ⟨by rw [h'.events, h.events, h.queries, eventsFrom_append, List.append_assoc],
    by rw [h'.queries, h.queries, List.length_append, Nat.add_assoc]⟩

namespace CheckM

variable {α β : Type} {s s' s1 s2 s3 : CheckState} {bs bs' : List QueryBlock}

/-! ## Steps that report -/

/-- As `Tells`, by a step that keeps the brackets. Its reports are within the statistics of the two
states, and within a live query there are none. -/
structure Emits (s : CheckState) (bs : List QueryBlock)
    (s' : CheckState) : Prop extends s.Tells bs s' where
  balanced : Balanced s s'
  within : ∀ r ∈ bs.filterMap report?, s.guard.iterations < r.iterations ∧
    r.iterations ≤ s'.guard.iterations ∧ s.guard.cycles ≤ r.cycles ∧ r.cycles ≤ s'.guard.cycles
  ascending : Ascending bs
  nested : s.guard.isActive = true → bs = []

namespace Emits

theorem still (balanced : Balanced s s') (events : s'.events = s.events)
    (queries : s'.queries = s.queries) : Emits s [] s' :=
  ⟨⟨by rw [events]; exact (List.append_nil _).symm, queries⟩, balanced, fun _ h =>
    (nomatch h), .nil, fun _ => rfl⟩

theorem refl (s : CheckState) : Emits s [] s := .still (.refl s) rfl rfl

theorem append (h : Emits s1 bs s2) (h' : Emits s2 bs' s3) : Emits s1 (bs ++ bs') s3 := by
  have later := h'.balanced
  have earlier := h.balanced
  refine ⟨h.toTells.append h'.toTells, earlier.trans later, fun r mem => ?_, ?_, fun active => ?_⟩
  · rw [List.filterMap_append] at mem
    obtain mem | mem := List.mem_append.1 mem
    · obtain ⟨above, below, cycles, cycles'⟩ := h.within r mem
      exact ⟨above, below.trans later.iterations, cycles, cycles'.trans later.cycles⟩
    · obtain ⟨above, below, cycles, cycles'⟩ := h'.within r mem
      exact ⟨earlier.iterations.trans_lt above, below, earlier.cycles.trans cycles, cycles'⟩
  · rw [Ascending, List.filterMap_append]
    refine List.pairwise_append.2 ⟨h.ascending, h'.ascending, fun r mem r' mem' => ?_⟩
    have first := h.within r mem
    have second := h'.within r' mem'
    exact ⟨first.2.1.trans_lt second.1, first.2.2.2.trans second.2.2.1⟩
  · have same :
      s2.guard.isActive = s1.guard.isActive := by rw [Guard.isActive, Guard.isActive, earlier.depth]
    rw [h.nested active, h'.nested (same.trans active)]
    rfl

theorem congr (h : Emits s1 bs s2) (before : s1.report = s.report) (behind : s2.report = s'.report)
    (balanced : Balanced s s') : Emits s bs s' := by
  simp only [CheckState.report, Prod.mk.injEq] at before behind
  obtain ⟨events, queries, guard⟩ := before
  obtain ⟨events', queries', guard'⟩ := behind
  refine ⟨⟨?_, ?_⟩, balanced, ?_, h.ascending, ?_⟩
  · rw [← events, ← events', ← queries, h.events]
  · rw [← queries, ← queries', h.queries]
  · rw [← guard, ← guard']
    exact h.within
  · rw [← guard]
    exact h.nested

end Emits

/-- Whatever the first state, the computation reports blocks, which are complete if it gives an
answer. -/
def Reports (x : CheckM α) : Prop := ∀ s, ∃ bs, Emits s bs (x.after s) ∧
    Complete bs (x.answer? s).isSome

namespace Reports

variable {x : CheckM α}

theorem balanced (hx : Reports x) : Keeps Balanced x := fun s => (hx s).choose_spec.1.balanced

theorem still (balanced : Keeps Balanced x)
    (same : ∀ s, (x.after s).events = s.events ∧ (x.after s).queries = s.queries) : Reports x :=
  fun s => ⟨[], .still (balanced s) (same s).1 (same s).2, fun _ h =>
    (nomatch h), fun _ _ h => nomatch h⟩

theorem bind {f : α → CheckM β} (hx : Reports x) (hf : ∀ a, Reports (f a)) : Reports (x >>= f) := by
  intro s
  obtain ⟨bs, emits, complete⟩ := hx s
  cases run : x s with
  | error e s1 =>
    rw [after_error run] at emits
    rw [answer?_error run] at complete
    refine ⟨bs, ?_, ?_⟩
    · rwa [after, bind_error run]
    · rwa [answer?, bind_error run]
  | ok a s1 =>
    rw [after_ok run] at emits
    rw [answer?_ok run] at complete
    obtain ⟨bs', emits', complete'⟩ := hf a s1
    refine ⟨bs ++ bs', ?_, fun b mem => ?_, fun answered b mem => ?_⟩
    · rw [after, bind_ok run]
      exact emits.append emits'
    · rw [List.dropLast_append] at mem
      split at mem
      · exact complete.2 rfl b (List.dropLast_subset _ mem)
      · exact (List.mem_append.1 mem).elim (complete.2 rfl b) (complete'.1 b)
    · rw [answer?, bind_ok run] at answered
      exact (List.mem_append.1 mem).elim (complete.2 rfl b) (complete'.2 answered b)

/-- A computation around another one that reports do not tell from it. -/
theorem around {y : CheckM α} {x : CheckState → CheckM α} (inner : CheckState → CheckState)
    (hx : ∀ s, Reports (x s)) (hy : Keeps Balanced y) (before : ∀ s, (inner s).report = s.report)
    (behind : ∀ s, ((x s).after (inner s)).report = (y.after s).report)
    (answer : ∀ s, (y.answer? s).isSome = ((x s).answer? (inner s)).isSome) : Reports y := by
  intro s
  obtain ⟨bs, emits, complete⟩ := hx s (inner s)
  exact ⟨bs, emits.congr (before s) (behind s) (hy s), answer s ▸ complete⟩

end Reports

theorem answer?_ending (x : CheckM α) (cleanup : CheckState → CheckState) (s : CheckState) :
    (ending x cleanup).answer? s = x.answer? s := by
  unfold answer? ending
  cases x s <;> rfl

theorem updateVar_reports (v : VarId) (f : VarInfo Ty → VarInfo Ty) : Reports (updateVar v f) :=
  .still (updateVar_balanced v f) fun _ => ⟨rfl, rfl⟩

theorem onTable_reports (x : SymM α) : Reports (onTable x) := by
  refine .still (onTable_balanced x) fun s => ?_
  unfold after onTable
  cases EStateM.run x s.table <;> exact ⟨rfl, rfl⟩

theorem reports_lockstep : Lockstep fun x _ => Reports x where
  pure a := .still Balanced.refl fun _ => ⟨rfl, rfl⟩
  bind := .bind
  exhausted := .still Balanced.refl fun _ => ⟨rfl, rfl⟩
  onTable _ := onTable_reports _
  anyTable := onTable_reports
  readVars := .still Balanced.refl fun _ => ⟨rfl, rfl⟩
  addBound v f _ := updateVar_reports v f
  freshVar origin c := .still (balanced_lockstep.freshVar origin c) fun _ => ⟨rfl, rfl⟩
  atDeeperLevel {_ x _} hx := by
    refine .around (fun s => { s with skolems := s.skolems.enter.2 })
      (fun s => hx s.skolems.enter.2.depth) (atDeeperLevel_balanced fun level =>
      (hx level).balanced) (fun _ => rfl) (fun s => ?_) fun s => ?_
    · rw [after_atDeeperLevel]
      split <;> rfl
    · unfold answer?
      rw [atDeeperLevel_run]
      cases s.skolems.enter.1 with
      | true => exact congrArg Option.isSome (answer?_ending _ _ _)
      | false => rfl
  speculate {_ x _} hx := .around opened (fun _ => hx) (balanced_lockstep.speculate
    (y := x) hx.balanced) (fun _ => rfl) (fun s => by rw [after_speculate]; rfl) fun s =>
      congrArg Option.isSome (answer?_ending x (undone s) (opened s))

/-! ## Queries -/

theorem probe_reports {x : CheckM Bool} (hx : Reports x) : Reports (probe x) := by
  have run : ∀ s, (x.after (opened s)).report = ((probe x).after s).report ∧
      ((probe x).answer? s).isSome = (x.answer? (opened s)).isSome := by
    intro s
    unfold after answer?
    rw [probe_run]
    rcases x (opened s) with ⟨_ | _, s'⟩ | ⟨e, s'⟩ <;> exact ⟨rfl, rfl⟩
  exact .around opened (fun _ => hx) (probe_balanced hx.balanced)
    (fun _ => rfl) (fun s => (run s).1) fun s => (run s).2

variable {enter : Guard.Entering} {key : Option QueryKey} {x : CheckM Bool}
  (he : Guard.Enters key enter) (hx : Reports x) (op : Relation) (depth : Option Nat)
include he hx

/-- A query whose rule reports nothing while it is live: the states around what happens within
it. -/
theorem query_within (s : CheckState) : ∃ s', s'.events = (admitted enter op depth s).events ∧
    s'.queries = (admitted enter op depth s).queries ∧
      s.guard.iterations < s'.guard.iterations ∧ s.guard.cycles ≤ s'.guard.cycles ∧
      ((∃ b, reported op depth (guarded enter x) s = .ok b (answered op s b s')) ∨
        ∃ e, reported op depth (guarded enter x) s = .error e s') := by
  obtain ⟨iterations, cycles, live⟩ := (he s.guard).counts
  rw [query_run]
  cases h : (enter s.guard).1 with
  | cycle | tooDeep =>
    exact ⟨_, rfl, rfl, by rwa [admitted_guard], by rwa [admitted_guard], .inl ⟨false, rfl⟩⟩
  | entered entry =>
    obtain ⟨bs, emits, -⟩ := probe_reports hx (admitted enter op depth s)
    obtain rfl := emits.nested (by rw [admitted_guard]; exact live (by rw [h]; rfl))
    have balanced := emits.balanced
    rw [← admitted_guard enter op depth s] at iterations cycles
    have events : ((probe x).after (admitted enter op depth s)).events =
      (admitted enter op depth s).events :=
      Array.toList_inj.1 (emits.events.trans (List.append_nil _))
    refine ⟨left entry ((probe x).after (admitted enter op depth s)), events, emits.queries,
      iterations.trans_le balanced.iterations, cycles.trans balanced.cycles, ?_⟩
    cases hp : probe x (admitted enter op depth s) with
    | ok b s' => exact .inl ⟨b, by rw [after_ok hp]⟩
    | error e s' => exact .inr ⟨e, by rw [after_error hp]⟩

theorem query_reports : Reports (reported op depth (guarded enter x)) := by
  intro s
  have balanced := query_balanced he hx.balanced op depth s
  obtain ⟨s', events, queries, iterations, cycles, run⟩ := query_within he hx op depth s
  cases live : s.guard.isActive with
  | true =>
    -- neither the start nor the end is told
    rw [admitted, if_pos live] at events queries
    refine ⟨[], .still balanced ?_ ?_, fun _ h => (nomatch h), fun _ _ h => nomatch h⟩
    all_goals
      obtain ⟨b, run⟩ | ⟨e, run⟩ := run
      · rw [after_ok run, answered, if_pos live]
        assumption
      · rw [after_error run]
        assumption
  | false =>
    have idle : ¬ s.guard.isActive = true := by rw [live]; decide
    rw [admitted, if_neg idle] at events queries
    obtain ⟨b, run⟩ | ⟨e, run⟩ := run
    · rw [after_ok run, answered, if_neg idle] at balanced ⊢
      rw [answer?_ok run]
      refine ⟨[⟨op, depth, some ⟨b, s'.guard.iterations, s'.guard.cycles⟩⟩],
        ⟨⟨?_, queries⟩, balanced, ?_, ?_, ?_⟩, ?_⟩
      · simp [events, eventsFrom, QueryBlock.events]
      · simp [iterations, cycles]
      · simp [Ascending]
      · simp [live]
      · simp [Complete]
    · rw [after_error run] at balanced ⊢
      rw [answer?_error run]
      refine ⟨[⟨op, depth, none⟩], ⟨⟨?_, queries⟩, balanced, ?_, ?_, ?_⟩, ?_⟩
      · simp [events, eventsFrom, QueryBlock.events]
      · simp
      · simp [Ascending]
      · simp [live]
      · simp [Complete]

/-! ## Brackets -/

/-- `x`, told by one block: its start, and its end with the answer that it gave. -/
def bracketed (op : Relation) (depth : Option Nat) (x : CheckM Bool) : CheckM Bool := fun s =>
  match x s with
  | .ok b s' => .ok b { s' with
      queries := s.queries + 1
      events := s.events ++ QueryBlock.events s.queries
        ⟨op, depth, some ⟨b, s'.guard.iterations, s'.guard.cycles⟩⟩ }
  | .error e s' => .error e { s' with
      queries := s.queries + 1
      events := s.events ++ QueryBlock.events s.queries ⟨op, depth, none⟩ }

/-- An outermost query tells of itself, and of nothing that is asked within it. -/
theorem query_bracketed {s : CheckState} (idle : s.guard.isActive = false) : reported
    op depth (guarded enter x) s = bracketed op depth (reported op depth (guarded enter x)) s := by
  have idle : ¬ s.guard.isActive = true := by rw [idle]; decide
  obtain ⟨s', events, queries, -, -, ended⟩ := query_within he hx op depth s
  rw [admitted, if_neg idle] at events queries
  rcases s' with ⟨t, vars, guard, skolems, n, es⟩
  simp only at events queries
  subst events queries
  obtain ⟨b, run⟩ | ⟨e, run⟩ := ended
  · simp [bracketed, run, answered, if_neg idle, QueryBlock.events]
  · simp [bracketed, run, QueryBlock.events]

theorem query_told (p : Policy) :
    Reports (reported op depth (guarded enter x)) ∧
      Unseen p [] (reported op depth (guarded enter x))
        (bracketed op depth (reported op depth (guarded enter x))) := by
  refine ⟨query_reports he hx op depth, query_balanced he hx.balanced op depth, fun s books => ?_⟩
  refine query_bracketed he hx op depth ?_
  rw [Guard.isActive, books.depth]
  rfl

end CheckM

/-- Each query, told by one block. -/
def Queries.bracketed (q : Queries) : Queries where
  sub l r depth := CheckM.bracketed .subtype depth.remaining? (q.sub l r depth)
  same l r := CheckM.bracketed .sameType none (q.same l r)

namespace Config

variable (cfg : Config)

theorem queriesUpTo_told (n : Nat) :
    Queries.InStep (fun x _ => Reports x) (cfg.queriesUpTo n) (cfg.queriesUpTo n) ∧
      Queries.InStep (Unseen cfg.policy []) (cfg.queriesUpTo n) (cfg.queriesUpTo n).bracketed := by
  suffices h : Queries.InStep (fun x y => Reports x ∧ Unseen cfg.policy [] x y) (cfg.queriesUpTo n)
      (cfg.queriesUpTo n).bracketed from
    ⟨⟨fun l r d => (h.sub l r d).1, fun l r => (h.same l r).1⟩,
      ⟨fun l r d => (h.sub l r d).2, fun l r => (h.same l r).2⟩⟩
  induction n with
  | zero =>
    exact ⟨fun l r d => query_told (Guard.enters_enter (l, r)) (reports_lockstep.pure _) _ _ _,
      fun l r => query_told Guard.enters_enterUntracked (reports_lockstep.pure _) _ _ _⟩
  | succ n ih =>
    have asked : Queries.InStep (fun x _ => Reports x) (cfg.queriesUpTo n) (cfg.queriesUpTo n) :=
      ⟨fun l r d => (ih.sub l r d).1, fun l r => (ih.same l r).1⟩
    exact ⟨fun l r d => query_told (Guard.enters_enter (l, r)) (reports_lockstep.subStep
        asked (reports_lockstep.solveOne_of_writes asked updateVar_reports) l r d) _ _ _,
      fun l r => query_told Guard.enters_enterUntracked (reports_lockstep.sameStep
        asked (reports_lockstep.equality_of_writes asked updateVar_reports) l r) _ _ _⟩

theorem run_reports {op : Operation} (hop : op ≠ .resetStats) (s : CheckState) :
    ∃ bs, Emits s bs ((cfg.run op).after s) ∧ Complete bs ((cfg.run op).answer? s).isSome := by
  rw [after_run, answer?, run_eq]
  exact reports_lockstep.operation cfg (cfg.queriesUpTo_told (levelsLeft s)).1
    updateVar_reports hop s

theorem session_tells (ops : List Operation) (s : CheckState) :
    ∃ bs, s.Tells bs (cfg.session ops s) := by
  induction ops generalizing s with
  | nil => exact ⟨[], (Emits.refl s).toTells⟩
  | cons op ops ih =>
    obtain ⟨bs', tells'⟩ := ih ((cfg.run op).after s)
    by_cases hop : op = .resetStats
    · subst hop
      exact ⟨bs', tells'.events, tells'.queries⟩
    · obtain ⟨bs, emits, -⟩ := cfg.run_reports hop s
      exact ⟨bs ++ bs', emits.toTells.append tells'⟩

/-- As long as statistics are not reset. -/
theorem session_emits {ops : List Operation} (hops : .resetStats ∉ ops) (s : CheckState) :
    ∃ bs, Emits s bs (cfg.session ops s) := by
  induction ops generalizing s with
  | nil => exact ⟨[], .refl s⟩
  | cons op ops ih =>
    rw [List.mem_cons, not_or] at hops
    obtain ⟨bs, emits, -⟩ := cfg.run_reports (Ne.symm hops.1) s
    obtain ⟨bs', emits'⟩ := ih hops.2 ((cfg.run op).after s)
    exact ⟨bs ++ bs', emits.append emits'⟩

/-- At any point of a session, an operation adds exactly one block for each query that it asks
itself, and nothing for the queries asked within those: it runs as with queries that are each told
by one block. All its blocks have an end, the last one apart if it fails. The blocks of any further
operations are numbered on, and as long as statistics are not reset, iterations go up from end to
end and cycles do not go down. -/
theorem query_events_are_bracketed (table : SymbolTable)
    (queries : Nat) (events : Array QueryEvent) (ops : List Operation) :
    let s := cfg.session ops (.fresh cfg.policy table queries events)
    (∀ op, cfg.run op s = op.asking cfg (cfg.queriesUpTo (levelsLeft s)).bracketed s ∧
      ∃ bs, s.Tells bs ((cfg.run op).after s) ∧ Complete bs ((cfg.run op).answer? s).isSome) ∧
    ∀ ops', ∃ bs, s.Tells bs (cfg.session ops' s) ∧ (.resetStats ∉ ops' → Ascending bs) := by
  intro s
  have brackets : s.brackets = (CheckState.fresh cfg.policy table queries events).brackets :=
    cfg.session_brackets ops _
  have depth : s.guard.depth = 0 := congrArg Brackets.depth brackets
  have books : cfg.policy.Books s.guard [] :=
    ⟨congrArg Brackets.trackFrom brackets, congrArg Brackets.maxDepth brackets,
      depth, depth ▸ Nat.zero_le _, congrArg Brackets.pending brackets⟩
  refine ⟨fun op => ?_, fun ops' => ?_⟩
  · by_cases hop : op = .resetStats
    · subst hop
      exact ⟨rfl, [], ⟨(List.append_nil _).symm, rfl⟩, fun _ h =>
        (nomatch h), fun _ _ h => nomatch h⟩
    · obtain ⟨bs, emits, complete⟩ := cfg.run_reports hop s
      refine ⟨?_, bs, emits.toTells, complete⟩
      rw [run_eq]
      exact ((unseen_lockstep cfg.policy []).operation cfg (cfg.queriesUpTo_told (levelsLeft s)).2
        (fun v f => ⟨updateVar_balanced v f, fun _ _ => rfl⟩) hop).2 s books
  · by_cases reset : .resetStats ∈ ops'
    · obtain ⟨bs, tells⟩ := cfg.session_tells ops' s
      exact ⟨bs, tells, fun h => absurd reset h⟩
    · obtain ⟨bs, emits⟩ := cfg.session_emits reset s
      exact ⟨bs, emits.toTells, fun _ => emits.ascending⟩

end Config

end Conformance

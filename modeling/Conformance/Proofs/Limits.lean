import Conformance.Proofs.Session
import Conformance.Proofs.Classes.Contract

/-! # Limits matter only when they fire

Two checkers with one configuration but for the limits of their guards, the second with the wider
ones, take every step together as long as the first guard refuses nothing. Their pending pairs
differ: the second starts to track later, so it holds some of the pairs that the first one holds and
can only find a cycle where the first one finds it. -/

namespace Conformance

variable {x y : CheckM Bool} {s s' s1 s2 s3 t : CheckState}

/-! ## The rules do not read the limits -/

/-- The policy with wider limits. -/
def Policy.raised (p : Policy) (threshold depth : Nat) : Policy :=
  { p with pendingThreshold := p.pendingThreshold + threshold, maxDepth := p.maxDepth + depth }

def Config.raised (cfg : Config) (threshold depth : Nat) : Config :=
  { cfg with policy := cfg.policy.raised threshold depth }

section Raised

variable (cfg : Config) (k m : Nat) (q : Queries)

theorem baseTypesAt_raised : baseTypesAt (cfg.raised k m) = baseTypesAt cfg := by
  funext cls types
  induction types with
  | nil => rfl
  | cons ty rest ih =>
    unfold baseTypesAt
    rw [ih]
    rfl

theorem lubWith_raised : lubWith (cfg.raised k m) q = lubWith cfg q := by
  unfold lubWith sharedBaseType sharedBaseTypeBy sharedBaseTypeAt
  rw [baseTypesAt_raised]
  rfl

theorem lubUpTo_raised : lubUpTo (cfg.raised k m) q = lubUpTo cfg q := by
  funext n types
  induction n generalizing types with
  | zero =>
    unfold lubUpTo
    rw [lubWith_raised]
  | succ n ih =>
    unfold lubUpTo
    simp only [ih, lubWith_raised]
    rfl

theorem chooseInst_raised : chooseInst (cfg.raised k m) q = chooseInst cfg q := by
  unfold chooseInst
  rw [lubUpTo_raised]
  rfl

theorem solveOne_raised {ι : Type} (l : Lanes ι) :
    l.solveOne (cfg.raised k m) q = l.solveOne cfg q := by
  funext g depth n
  induction n with
  | zero => rfl
  | succ n ih =>
    funext progress u
    unfold Lanes.solveOne
    rw [ih, chooseInst_raised]
    rfl

theorem solve_raised : solve (cfg.raised k m) q = solve cfg q := by
  unfold solve solveAlong
  simp only [solveOne_raised]
  rfl

theorem subStep_raised : subStep (cfg.raised k m) q = subStep cfg q := by
  have existential : conformsToExistential (cfg.raised k m) q = conformsToExistential cfg q := by
    unfold conformsToExistential Renaming.conformsToExistential
    rw [solve_raised]
    rfl
  have right : rightPass (cfg.raised k m) q = rightPass cfg q := by
    unfold rightPass
    rw [existential]
    rfl
  have left : leftPass (cfg.raised k m) q = leftPass cfg q := by
    unfold leftPass
    rw [right]
    rfl
  have first : firstPass (cfg.raised k m) q = firstPass cfg q := by
    unfold firstPass
    rw [left]
    rfl
  unfold subStep
  rw [first]
  rfl

theorem Config.queriesUpTo_raised (n : Nat) : (cfg.raised k m).queriesUpTo
    n = cfg.queriesUpTo n := by
  induction n with
  | zero => rfl
  | succ n ih =>
    unfold Config.queriesUpTo
    rw [ih, subStep_raised]
    rfl

theorem Operation.asking_raised (op : Operation) :
    op.asking (cfg.raised k m) q = op.asking cfg q := by
  cases op with
  | solve => exact congrArg ExceptT.run (congrFun (congrFun (congrFun (congrFun (congrFun
      (solve_raised cfg k m q) _) _) _) _) _)
  | lub types => exact congrFun (congrFun (lubUpTo_raised cfg k m q) _) _
  | _ => rfl

end Raised

/-! ## Two guards -/

/-- With `n` and `n'` levels left at most, the second guard stands where the first one does, under
wider limits. -/
structure Guard.Looser (n n' : Nat) (g g' : Guard QueryKey) : Prop where
  depth : g'.depth = g.depth
  iterations : g'.iterations = g.iterations
  cycles : g'.cycles = g.cycles
  cutoffs : g'.cutoffs = g.cutoffs
  trackFrom : g.trackFrom ≤ g'.trackFrom
  maxDepth : g.maxDepth ≤ g'.maxDepth
  pending : g'.pending.elems ⊆ g.pending.elems
  levels : g.maxDepth ≤ g.depth + n
  levels' : g'.maxDepth ≤ g'.depth + n'

/-- What the first guard admits the second one admits. -/
theorem Guard.Looser.enter {n n' : Nat} {g g' : Guard QueryKey}
    (h : g.Looser n n' g') {key : Option QueryKey}
    {entry : Entry QueryKey} {a : Admission QueryKey} {g1 g1' : Guard QueryKey}
    (outcome : g.Outcome key (.entered entry) g1) (outcome' : g'.Outcome key a g1') :
    ∃ k k' entry', n = k + 1 ∧ n' = k' + 1 ∧ a = .entered entry' ∧ g1.Looser k k' g1' := by
  obtain ⟨depth, iterations, cycles, cutoffs, trackFrom, maxDepth, pending, levels, levels'⟩ := h
  have room : g.depth < g.maxDepth := by cases outcome <;> assumption
  refine ⟨n - 1, n' - 1, ?_⟩
  cases outcome' with
  | tooDeep _ full => omega
  | cycle key _ deep' mem =>
    -- the first guard would have found the cycle too
    cases outcome with
    | untracked _ _ shallow =>
      have := shallow key rfl
      omega
    | tracked _ _ _ fresh => exact absurd (pending mem) fresh
  | untracked _ _ shallow' =>
    refine ⟨⟨none⟩, by omega, by omega, rfl, ?_⟩
    cases outcome with
    | untracked _ _ shallow =>
      exact ⟨by simp [depth], by simp [iterations], cycles, cutoffs, trackFrom, maxDepth, pending,
        by simp only; omega, by simp only; omega⟩
    | tracked key _ deep fresh =>
      refine ⟨by simp [depth], by simp [iterations], cycles,
        cutoffs, trackFrom, maxDepth, fun k mem => ?_, by simp only; omega, by simp only; omega⟩
      rw [KeySet.elems_insert, if_neg fresh]
      exact List.mem_cons_of_mem _ (pending mem)
  | tracked key _ deep' fresh' =>
    refine ⟨⟨some key⟩, by omega, by omega, rfl, ?_⟩
    cases outcome with
    | untracked _ _ shallow =>
      have := shallow key rfl
      omega
    | tracked _ _ deep fresh =>
      refine ⟨by simp [depth], by simp [iterations], cycles,
        cutoffs, trackFrom, maxDepth, fun k mem => ?_, by simp only; omega, by simp only; omega⟩
      rw [KeySet.elems_insert, if_neg fresh'] at mem
      rw [KeySet.elems_insert, if_neg fresh]
      exact (List.mem_cons.1 mem).elim (· ▸ List.mem_cons_self) fun mem =>
        List.mem_cons_of_mem _ (pending mem)

namespace CheckM

variable {α β : Type} {n n' : Nat}

/-- The two states differ in their guards only, of which the second has the wider limits. -/
def Wider (n n' : Nat) (s s' : CheckState) : Prop :=
  ∃ g, s' = { s with guard := g } ∧ s.guard.Looser n n' g

/-- Both runs gave the same answer or failed in the same way, in related states. -/
inductive Agrees (R : CheckState → CheckState → Prop) :
    EStateM.Result Failure CheckState α → EStateM.Result Failure CheckState α → Prop
  | ok (a : α) {s s' : CheckState} (states : R s s') : Agrees R (.ok a s) (.ok a s')
  | error (e : Failure) {s s' : CheckState} (states : R s s') : Agrees R (.error e s) (.error e s')

/-- From states that differ in their guards only, the second run goes as the first one does unless
the first guard refuses an entry. -/
structure Follows (n n' : Nat) (x y : CheckM α) : Prop where
  balanced : Keeps Balanced x
  balanced' : Keeps Balanced y
  agrees {s s' : CheckState} : Wider n n' s s' → ¬ Counted s (x.after s) →
    Agrees (Wider n n') (x s) (y s')

theorem Follows.bind {x y : CheckM α} {f g : α → CheckM β} (hx : Follows n n' x y)
    (hf : ∀ a, Follows n n' (f a) (g a)) : Follows n n' (x >>= f) (y >>= g) := by
  have sequenced := Keeps.sequenced Balanced.refl Balanced.trans
  refine ⟨sequenced.bind (y := x) hx.balanced (g := f) fun a => (hf a).balanced, sequenced.bind
    (y := y) hx.balanced' (g := g) fun a => (hf a).balanced', fun {s s'} wider uncounted => ?_⟩
  have balanced := hx.balanced s
  cases h : x s with
  | ok a t =>
    rw [after_ok h] at balanced
    have rest : ((x >>= f).after s) = (f a).after t := by rw [after, bind_ok h, ← after]
    rw [rest] at uncounted
    have first := hx.agrees wider fun counted =>
      uncounted (Balanced.counted_left (after_ok h ▸ counted) ((hf a).balanced t))
    rw [h] at first
    cases h' : y s' with
    | ok a' t' =>
      rw [h'] at first
      cases first with
      | ok _ wider' =>
        rw [bind_ok h, bind_ok h']
        exact (hf a).agrees wider' fun counted => uncounted (balanced.counted_right counted)
    | error e t' =>
      rw [h'] at first
      cases first
  | error e t =>
    rw [after, bind_error h] at uncounted
    have first := hx.agrees wider (by rwa [after_error h])
    rw [h] at first
    cases h' : y s' with
    | ok a' t' =>
      rw [h'] at first
      cases first
    | error e' t' =>
      rw [h'] at first
      rw [bind_error h, bind_error h']
      cases first with
      | error _ wider' => exact .error e wider'

theorem Agrees.ending {R R' : CheckState → CheckState → Prop}
    {x y : CheckM α} (h : Agrees R (x s) (y s')) {c d : CheckState → CheckState}
    (hc : ∀ t t', R t t' → R' (c t) (d t')) : Agrees R' (CheckM.ending x c s)
    (CheckM.ending y d s') := by
  unfold CheckM.ending
  generalize x s = first at h
  generalize y s' = second at h
  cases h with
  | ok a states => exact .ok a (hc _ _ states)
  | error e states => exact .error e (hc _ _ states)

theorem updateVar_follows (v : VarId) (f : VarInfo Ty → VarInfo Ty) :
    Follows n n' (updateVar v f) (updateVar v f) := by
  refine ⟨updateVar_balanced v f, updateVar_balanced v f, ?_⟩
  rintro s _ ⟨g, rfl, hg⟩ -
  exact .ok () ⟨g, rfl, hg⟩

theorem onTable_follows (x : SymM α) : Follows n n' (onTable x) (onTable x) := by
  refine ⟨balanced_lockstep.anyTable x, balanced_lockstep.anyTable x, ?_⟩
  rintro s _ ⟨g, rfl, hg⟩ -
  unfold onTable
  cases EStateM.run x s.table with
  | ok a t => exact .ok a ⟨g, rfl, hg⟩
  | error e t => exact .error e ⟨g, rfl, hg⟩

theorem follows_lockstep (n n' : Nat) : Lockstep (Follows n n') where
  pure a := by
    refine ⟨Balanced.refl, Balanced.refl, fun wider _ => .ok a wider⟩
  bind := Follows.bind
  exhausted := ⟨Balanced.refl, Balanced.refl, fun wider _ => .error .exhausted wider⟩
  onTable _ := onTable_follows _
  anyTable := onTable_follows
  readVars := by
    refine ⟨Balanced.refl, Balanced.refl, ?_⟩
    rintro s _ ⟨g, rfl, hg⟩ -
    exact .ok s.vars ⟨g, rfl, hg⟩
  addBound v f _ := updateVar_follows v f
  freshVar origin c := by
    refine ⟨balanced_lockstep.freshVar origin c, balanced_lockstep.freshVar origin c, ?_⟩
    rintro s _ ⟨g, rfl, hg⟩ -
    exact .ok _ ⟨g, rfl, hg⟩
  atDeeperLevel {_ x y} hx := by
    refine ⟨atDeeperLevel_balanced fun level => (hx level).balanced,
      atDeeperLevel_balanced fun level => (hx level).balanced', ?_⟩
    rintro s _ ⟨g, rfl, hg⟩ uncounted
    have inner := (hx s.skolems.enter.2.depth).agrees (s := { s with skolems := s.skolems.enter.2 })
      ⟨g, rfl, hg⟩ fun counted => uncounted <| by
        rw [after_atDeeperLevel]
        split <;> exact counted
    rw [atDeeperLevel_run, atDeeperLevel_run]
    cases s.skolems.enter.1 with
    | true =>
      refine inner.ending ?_
      rintro t _ ⟨g, rfl, hg⟩
      exact ⟨g, rfl, hg⟩
    | false => exact inner
  speculate {_ x y} hx := by
    refine ⟨balanced_lockstep.speculate (y := x) hx.balanced,
      balanced_lockstep.speculate (y := y) hx.balanced', ?_⟩
    rintro s _ ⟨g, rfl, hg⟩ uncounted
    have inner := hx.agrees (s := opened s) ⟨g, rfl, hg⟩ fun counted => uncounted <| by
      rw [after_speculate]
      exact counted
    refine inner.ending (c := undone s) (d := undone { s with guard := g }) ?_
    rintro t _ ⟨g, rfl, hg⟩
    exact ⟨g, rfl, hg⟩

theorem probe_follows (hx : Follows n n' x y) : Follows n n' (probe x) (probe y) := by
  refine ⟨probe_balanced hx.balanced, probe_balanced hx.balanced', ?_⟩
  rintro s _ ⟨g, rfl, hg⟩ uncounted
  have inner := hx.agrees (s := opened s) ⟨g, rfl, hg⟩ fun counted => uncounted <| by
    rw [after, probe_run]
    cases h : x (opened s) with
    | ok b t =>
      rw [after_ok h] at counted
      cases b <;> exact counted
    | error e t =>
      rw [after_error h] at counted
      exact counted
  rw [probe_run, probe_run]
  have commit : ∀ t t', Wider n n' t t' → Wider n n' { t with vars := t.vars.commit.unlock }
      { t' with vars := t'.vars.commit.unlock } := by
    rintro t _ ⟨g, rfl, hg⟩
    exact ⟨g, rfl, hg⟩
  have undo : ∀ t t', Wider n n' t t' → Wider n n' (undone s t)
    (undone { s with guard := g } t') := by
    rintro t _ ⟨g, rfl, hg⟩
    exact ⟨g, rfl, hg⟩
  change Agrees _ _ (y (opened { s with guard := g })) at inner
  generalize x (opened s) = first at inner
  generalize y (opened { s with guard := g }) = second at inner
  cases inner with
  | ok b wider =>
    cases b with
    | true => exact .ok true (commit _ _ wider)
    | false => exact .ok false (undo _ _ wider)
  | error e wider => exact .error e (undo _ _ wider)

/-- After a query both guards stand where they stood, with the same counts. -/
theorem Wider.of_balanced {g : Guard QueryKey} (h : Wider n n' s s') (balanced : Balanced s t)
    (balanced' : Balanced s' { t with guard := g }) (iterations : g.iterations = t.guard.iterations)
    (cycles : g.cycles = t.guard.cycles) (cutoffs : g.cutoffs = t.guard.cutoffs) :
    Wider n n' t { t with guard := g } := by
  obtain ⟨g0, rfl, hg⟩ := h
  have depth := balanced.depth
  have depth' : g.depth = g0.depth := balanced'.depth
  have maxDepth := balanced.maxDepth
  have maxDepth' : g.maxDepth = g0.maxDepth := balanced'.maxDepth
  have trackFrom := balanced.trackFrom
  have trackFrom' : g.trackFrom = g0.trackFrom := balanced'.trackFrom
  have pending' : g.pending.elems = g0.pending.elems := balanced'.pending
  refine ⟨g, rfl, ?_, iterations, cycles, cutoffs, ?_, ?_, ?_, ?_, ?_⟩
  · rw [depth, depth', hg.depth]
  · rw [trackFrom, trackFrom']
    exact hg.trackFrom
  · rw [maxDepth, maxDepth']
    exact hg.maxDepth
  · rw [balanced.pending, pending']
    exact hg.pending
  · rw [depth, maxDepth]
    exact hg.levels
  · rw [depth', maxDepth']
    exact hg.levels'

section Query

variable {key : Option QueryKey} {enter : Guard.Entering}

theorem counted_of_refused (he : Guard.Enters key enter)
    (refused : (enter s.guard).1.isEntered = false) (op : Relation)
    (depth : Option Nat) (b : Bool) : Counted s (answered op s b (admitted enter op depth s)) := by
  have outcome := he s.guard
  unfold Counted
  rw [answered_guard, admitted_guard]
  generalize (enter s.guard).1 = a at outcome refused
  generalize (enter s.guard).2 = g at outcome
  cases outcome with
  | tooDeep => exact .inr (Nat.lt_succ_self _)
  | cycle => exact .inl (Nat.lt_succ_self _)
  | untracked => cases refused
  | tracked => cases refused

/-- A guard that admits an entry has counted no refusal. -/
theorem counted_of_admitted (he : Guard.Enters key enter) {entry : Entry QueryKey}
    (entered : (enter s.guard).1 = .entered entry) (op : Relation) (depth : Option Nat)
    (h : Counted (admitted enter op depth s) t) : Counted s t := by
  have outcome := he s.guard
  unfold Counted at h ⊢
  rw [admitted_guard] at h
  rw [entered] at outcome
  generalize (enter s.guard).2 = g at outcome h
  cases outcome <;> exact h

theorem admitted_of_guard {g : Guard QueryKey} (depth_eq : g.depth = s.guard.depth)
    (op : Relation) (depth : Option Nat) : admitted enter
    op depth { s with guard := g } = { admitted enter op depth s with guard := (enter g).2 } := by
  have active : g.isActive = s.guard.isActive := by simp [Guard.isActive, depth_eq]
  simp only [admitted, active]
  split <;> rfl

theorem answered_of_guard {g h : Guard QueryKey} (depth : g.depth = s.guard.depth)
    (op : Relation) (b : Bool) (iterations : h.iterations = t.guard.iterations)
    (cycles : h.cycles = t.guard.cycles) : answered
    op { s with guard := g } b { t with guard := h } = { answered op s b t with guard := h } := by
  have active : g.isActive = s.guard.isActive := by simp [Guard.isActive, depth]
  simp only [answered, active, iterations, cycles]
  split <;> rfl

theorem query_follows (he : Guard.Enters key enter) (hx : Keeps Balanced x) (hy : Keeps Balanced y)
    (h : ∀ k k', n = k + 1 → n' = k' + 1 → Follows k k' x y) (op : Relation) (depth : Option Nat) :
    Follows n n' (reported op depth (guarded enter x)) (reported op depth (guarded enter y)) := by
  have balanced := query_balanced he hx op depth
  have balanced' := query_balanced he hy op depth
  refine ⟨balanced, balanced', fun {s s'} wider uncounted => ?_⟩
  obtain ⟨g, rfl, looser⟩ := id wider
  have ends := balanced s
  have ends' := balanced' { s with guard := g }
  rw [after, query_run] at ends ends' uncounted
  rw [query_run, query_run]
  cases ha : (enter s.guard).1 with
  | entered entry =>
    have outcome := he s.guard
    rw [ha] at outcome
    obtain ⟨k, k', entry', hk, hk', ha', within⟩ := looser.enter outcome (he g)
    have started : Wider k k' (admitted enter op depth s)
      (admitted enter op depth { s with guard := g }) :=
      ⟨(enter g).2, admitted_of_guard looser.depth op depth, by rwa [admitted_guard]⟩
    simp only [ha, ha'] at ends ends' uncounted ⊢
    -- what was counted within was counted
    have inner := (probe_follows (h k k' hk hk')).agrees started fun counted => uncounted <| by
      have counted := counted_of_admitted he ha op depth counted
      cases hp : probe x (admitted enter op depth s) with
      | ok b t =>
        rw [after_ok hp] at counted
        simp only
        unfold Counted
        rw [answered_guard]
        exact counted
      | error e t =>
        rw [after_error hp] at counted
        exact counted
    generalize probe x (admitted enter op depth s) = first at inner ends
    generalize probe y (admitted enter op depth { s with guard := g }) = second at inner ends'
    cases inner with
    | ok b states =>
      obtain ⟨g', rfl, counts⟩ := states
      have same := answered_of_guard (t := left entry _) (h := g'.leave entry') looser.depth op b
        counts.iterations counts.cycles
      refine .ok b ?_
      simp only [left] at ends ends' same ⊢
      rw [same] at ends' ⊢
      refine wider.of_balanced ends ends' ?_ ?_ ?_ <;> rw [answered_guard]
      · exact counts.iterations
      · exact counts.cycles
      · exact counts.cutoffs
    | error e states =>
      obtain ⟨g', rfl, counts⟩ := states
      exact .error e (wider.of_balanced ends ends' counts.iterations counts.cycles counts.cutoffs)
  | cycle =>
    rw [ha] at uncounted
    exact absurd (counted_of_refused he (by rw [ha]; rfl) op depth false) uncounted
  | tooDeep =>
    rw [ha] at uncounted
    exact absurd (counted_of_refused he (by rw [ha]; rfl) op depth false) uncounted

end Query

end CheckM

/-! ## Two checkers -/

/-- The state under the limits of a policy. -/
def CheckState.under (s : CheckState) (p : Policy) : CheckState :=
  { s with guard := { s.guard with trackFrom := p.pendingThreshold, maxDepth := p.maxDepth } }

/-- The second state shows what the first one does: the same symbols and variables, and the same
counts. -/
structure CheckState.Matches (s s' : CheckState) : Prop where
  table : s'.table = s.table
  vars : s'.vars = s.vars
  skolems : s'.skolems = s.skolems
  queries : s'.queries = s.queries
  events : s'.events = s.events
  iterations : s'.guard.iterations = s.guard.iterations
  cycles : s'.guard.cycles = s.guard.cycles
  cutoffs : s'.guard.cutoffs = s.guard.cutoffs

namespace Config

open CheckM

variable (cfg : Config)

theorem queriesUpTo_follows (n n' : Nat) : Queries.InStep (Follows n n')
    (cfg.queriesUpTo n) (cfg.queriesUpTo n') := by
  -- a query without levels has no rule to follow
  have none : Keeps Balanced (pure false : CheckM Bool) := Balanced.refl
  have sub := fun n => subStep_balanced cfg (cfg.queriesUpTo_balanced n)
  have same := fun n => sameStep_balanced cfg (cfg.queriesUpTo_balanced n)
  induction n generalizing n' with
  | zero =>
    cases n' with
    | zero =>
      exact ⟨fun l r d => query_follows (Guard.enters_enter (l, r))
        none none (fun k _ h => absurd h k.zero_ne_add_one) _ _, fun l r => query_follows
        Guard.enters_enterUntracked none none (fun k _ h => absurd h k.zero_ne_add_one) _ _⟩
    | succ n' =>
      exact ⟨fun l r d => query_follows (Guard.enters_enter (l, r)) none (sub n' l r d)
        (fun k _ h => absurd h k.zero_ne_add_one) _ _, fun l r =>
        query_follows Guard.enters_enterUntracked none (same n' l r)
        (fun k _ h => absurd h k.zero_ne_add_one) _ _⟩
  | succ n ih =>
    cases n' with
    | zero =>
      exact ⟨fun l r d => query_follows (Guard.enters_enter (l, r))
        (sub n l r d) none (fun _ k _ h => absurd h k.zero_ne_add_one) _ _, fun l r =>
        query_follows Guard.enters_enterUntracked (same n l r)
        none (fun _ k _ h => absurd h k.zero_ne_add_one) _ _⟩
    | succ n' =>
      have h := follows_lockstep n n'
      refine ⟨fun l r d => query_follows (Guard.enters_enter (l, r)) (sub n l r d) (sub n' l r d) ?_
        _ _, fun l r => query_follows Guard.enters_enterUntracked (same n l r) (same n' l r) ?_ _ _⟩
      · rintro _ _ ⟨⟩ ⟨⟩
        exact h.subStep (ih n') (h.solveOne_of_writes (ih n') updateVar_follows) l r d
      · rintro _ _ ⟨⟩ ⟨⟩
        exact h.sameStep (ih n') (h.equality_of_writes (ih n') updateVar_follows) l r

/-- Raising the limits changes nothing that an operation finds, does or counts, unless the guard
refused an entry under the lower ones. -/
theorem raised_limits_agree (threshold depth : Nat)
    (s : CheckState) (op : Operation) (hop : op ≠ .resetStats)
    (uncounted : ¬ Counted (s.under cfg.policy) ((cfg.run op).after (s.under cfg.policy))) :
    let cfg' := cfg.raised threshold depth
    let s' := s.under cfg'.policy
    Agrees CheckState.Matches (cfg.run op (s.under cfg.policy)) (cfg'.run op s') ∧
      ¬ Counted s' ((cfg'.run op).after s') := by
  intro cfg' s'
  have levels : ∀ t : CheckState, t.guard.maxDepth ≤ t.guard.depth + levelsLeft t := fun t => by
    unfold levelsLeft
    omega
  have wider : Wider (levelsLeft (s.under cfg.policy)) (levelsLeft s') (s.under cfg.policy) s' :=
    ⟨s'.guard, rfl, rfl, rfl, rfl, rfl, Nat.le_add_right _ _, Nat.le_add_right _ _, fun _ mem =>
      mem, levels (s.under cfg.policy), levels s'⟩
  have run' : cfg'.run op s' = op.asking cfg (cfg.queriesUpTo (levelsLeft s')) s' := by
    rw [run_eq, Operation.asking_raised, queriesUpTo_raised]
  have follows := (follows_lockstep _ _).operation cfg (cfg.queriesUpTo_follows
    (levelsLeft (s.under cfg.policy)) (levelsLeft s')) updateVar_follows hop
  unfold after at uncounted ⊢
  rw [run_eq] at uncounted ⊢
  rw [run']
  have agrees := follows.agrees wider uncounted
  generalize op.asking cfg (cfg.queriesUpTo (levelsLeft (s.under cfg.policy)))
    (s.under cfg.policy) = first at agrees uncounted
  generalize op.asking cfg (cfg.queriesUpTo (levelsLeft s')) s' = second at agrees
  cases agrees with
  | ok a states =>
    obtain ⟨g, rfl, h⟩ := states
    refine ⟨.ok a ⟨rfl, rfl, rfl, rfl, rfl, h.iterations, h.cycles, h.cutoffs⟩, ?_⟩
    simp only [Counted, h.cycles, h.cutoffs]
    exact uncounted
  | error e states =>
    obtain ⟨g, rfl, h⟩ := states
    refine ⟨.error e ⟨rfl, rfl, rfl, rfl, rfl, h.iterations, h.cycles, h.cutoffs⟩, ?_⟩
    simp only [Counted, h.cycles, h.cutoffs]
    exact uncounted

/-- Every pair is tracked under the lower limits and none under the raised ones. -/
theorem raised_limits_keep_bounds :
    let cfg : Config := ⟨{ pendingThreshold := 1, maxDepth := 2 }, .typeConstraints, 2⟩
    let s : CheckState := { CheckState.fresh {} .initial 0 #[] with
      vars := { vec := { values := #[{ origin := Known.anyType, level := 0 }] } } }
    let op := Operation.isSubtype (.bounds (.var ⟨0⟩) (.var ⟨0⟩))
      (.bounds (.const .null) (.const .unit))
    let cfg' := cfg.raised 98 510
    let s' := s.under cfg'.policy
    ¬ Counted (s.under cfg.policy) ((cfg.run op).after (s.under cfg.policy)) ∧
      ((cfg.run op).after (s.under cfg.policy)).vars ≠ s.vars ∧
      Agrees CheckState.Matches (cfg.run op (s.under cfg.policy)) (cfg'.run op s') ∧
      ¬ Counted s' ((cfg'.run op).after s') := by
  intro cfg s op cfg' s'
  have uncounted :
    ¬ Counted (s.under cfg.policy) ((cfg.run op).after (s.under cfg.policy)) := by decide +kernel
  exact ⟨uncounted, by decide +kernel, cfg.raised_limits_agree 98 510 s op nofun uncounted⟩

end Config

end Conformance

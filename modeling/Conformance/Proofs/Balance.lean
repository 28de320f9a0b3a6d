import Conformance.Proofs.Atomicity

/-! # Every bracket that a rule opens is closed again

A query takes a lock, a snapshot and a level of the guard, and opening an existential takes a level
of skolemization. What a state holds of these is its `brackets`. Every operation ends with the
brackets it began with, also when it fails: each way of taking one gives it back around any
computation that keeps them. The guard's statistics only grow. -/

namespace Conformance

variable {x : CheckM Bool} {t : CheckState} {enter : Guard.Entering}
  {op : Relation} {s : CheckState} {key : Option QueryKey}

theorem KeySet.elems_erase_cons {κ : Type} [DecidableEq κ] [Hashable κ] {set set' : KeySet κ}
    {k : κ} (h : set'.elems = k :: set.elems) : (set'.erase k).elems = set.elems := by
  rw [elems_erase, h, List.erase_cons_head]

namespace Guard

variable {κ : Type} [DecidableEq κ] [Hashable κ]

/-- What a guard does when it is asked to admit an entry with the given key, or one without a
key. -/
inductive Outcome (g : Guard κ) : Option κ → Admission κ → Guard κ → Prop
  | tooDeep (key : Option κ) (full : g.maxDepth ≤ g.depth) :
      Outcome g key .tooDeep { g with iterations := g.iterations + 1, cutoffs := g.cutoffs + 1 }
  | untracked (key : Option κ) (room : g.depth < g.maxDepth)
      (shallow : ∀ k, key = some k → g.depth + 1 < g.trackFrom) : Outcome g key (.entered ⟨none⟩)
      { g with iterations := g.iterations + 1, depth := g.depth + 1 }
  | cycle (key : κ) (room : g.depth < g.maxDepth) (deep : g.trackFrom ≤ g.depth + 1)
      (pending : key ∈ g.pending.elems) :
      Outcome g (some key) .cycle { g with iterations := g.iterations + 1, cycles := g.cycles + 1 }
  | tracked (key : κ) (room : g.depth < g.maxDepth) (deep : g.trackFrom ≤ g.depth + 1)
      (fresh : key ∉ g.pending.elems) :
      Outcome g (some key) (.entered ⟨some key⟩)
        { g with
          iterations := g.iterations + 1, depth := g.depth + 1, pending := g.pending.insert key }

/-- A way to enter a guard with the given key, or without one. -/
def Enters (key : Option κ) (enter : Guard κ → Admission κ × Guard κ) : Prop :=
  ∀ g : Guard κ, g.Outcome key (enter g).1 (enter g).2

theorem enters_enterUntracked : Enters (κ := κ) none (·.enterUntracked) := by
  intro g
  by_cases full : g.maxDepth ≤ g.depth
  · simp only [enterUntracked, full, if_true]
    exact .tooDeep none full
  · simp only [enterUntracked, full, if_false]
    exact .untracked none (by omega) nofun

theorem enters_enter (key : κ) : Enters (some key) (·.enter key) := by
  intro g
  by_cases full : g.maxDepth ≤ g.depth
  · simp only [enter, full, if_true]
    exact .tooDeep _ full
  by_cases shallow : g.depth + 1 < g.trackFrom
  · simp only [enter, full, shallow, if_true, if_false]
    exact .untracked _ (by omega) fun _ _ => shallow
  cases pending : g.pending.contains key with
  | true =>
    simp only [enter, full, shallow, pending, if_true, if_false]
    exact .cycle key (by omega) (by omega) (KeySet.contains_iff.1 pending)
  | false =>
    simp only [enter, full, shallow, pending, if_false, Bool.false_eq_true]
    refine .tracked key (by omega) (by omega) fun mem => ?_
    rw [KeySet.contains_iff.2 mem] at pending
    cases pending

end Guard

/-- What a state holds: locks and snapshots of the variables, levels and pending pairs of the guard,
and levels of skolemization, with the limits that apply to them. -/
structure Brackets where
  locks : Nat
  snapshots : Nat
  depth : Nat
  pending : List QueryKey
  trackFrom : Nat
  maxDepth : Nat
  level : Nat
  maxLevel : Nat

def CheckState.brackets (s : CheckState) : Brackets where
  locks := s.vars.locks
  snapshots := s.vars.openSnapshots
  depth := s.guard.depth
  pending := s.guard.pending.elems
  trackFrom := s.guard.trackFrom
  maxDepth := s.guard.maxDepth
  level := s.skolems.depth
  maxLevel := s.skolems.maxDepth

namespace CheckM

variable {α : Type}

/-- The second state holds what the first one does, and has counted no less. -/
structure Balanced (s s' : CheckState) : Prop where
  brackets : s'.brackets = s.brackets
  iterations : s.guard.iterations ≤ s'.guard.iterations
  cycles : s.guard.cycles ≤ s'.guard.cycles
  cutoffs : s.guard.cutoffs ≤ s'.guard.cutoffs

namespace Balanced

variable {s s' s1 s2 s3 : CheckState}

theorem trans (h : Balanced s1 s2) (h' : Balanced s2 s3) : Balanced s1 s3 :=
  ⟨h'.brackets.trans h.brackets, Nat.le_trans h.iterations h'.iterations,
    Nat.le_trans h.cycles h'.cycles, Nat.le_trans h.cutoffs h'.cutoffs⟩

theorem of_eq (guard : s'.guard = s.guard)
    (skolems : s'.skolems = s.skolems) (locks : s'.vars.locks = s.vars.locks)
    (snapshots : s'.vars.openSnapshots = s.vars.openSnapshots) : Balanced s s' := by
  refine ⟨?_, by simp [guard], by simp [guard], by simp [guard]⟩
  simp only [CheckState.brackets, guard, skolems, locks, snapshots]

theorem refl (s : CheckState) : Balanced s s := of_eq rfl rfl rfl rfl

theorem locks (h : Balanced s s') : s'.vars.locks = s.vars.locks :=
    congrArg Brackets.locks h.brackets

theorem snapshots (h : Balanced s s') : s'.vars.openSnapshots = s.vars.openSnapshots :=
  congrArg Brackets.snapshots h.brackets

theorem depth (h : Balanced s s') : s'.guard.depth = s.guard.depth :=
    congrArg Brackets.depth h.brackets

theorem pending (h : Balanced s s') : s'.guard.pending.elems = s.guard.pending.elems :=
  congrArg Brackets.pending h.brackets

theorem trackFrom (h : Balanced s s') : s'.guard.trackFrom = s.guard.trackFrom :=
  congrArg Brackets.trackFrom h.brackets

theorem maxDepth (h : Balanced s s') : s'.guard.maxDepth = s.guard.maxDepth :=
  congrArg Brackets.maxDepth h.brackets

theorem level (h : Balanced s s') : s'.skolems.depth = s.skolems.depth :=
    congrArg Brackets.level h.brackets

end Balanced

/-- A snapshot is given back, whatever was done within it. -/
theorem balanced_closed {s' : CheckState} (h : Balanced (opened s) s')
    {vars : VarLog Ty} (locks : vars.locks = s'.vars.locks - 1)
    (snapshots : vars.openSnapshots = s'.vars.openSnapshots - 1) : Balanced s { s' with vars } := by
  replace locks : vars.locks = s.vars.locks := by rw [locks, h.locks]; rfl
  replace snapshots :
    vars.openSnapshots = s.vars.openSnapshots := by rw [snapshots, h.snapshots]; rfl
  refine ⟨?_, h.iterations, h.cycles, h.cutoffs⟩
  rw [show s.brackets =
    { (opened s).brackets with locks := s.vars.locks, snapshots := s.vars.openSnapshots } from rfl,
    ← h.brackets]
  simp [CheckState.brackets, locks, snapshots]

theorem balanced_undone {s' : CheckState} (h : Balanced (opened s) s') : Balanced s (undone s s') :=
  balanced_closed h rfl rfl

theorem probe_balanced (hx : Keeps Balanced x) : Keeps Balanced (probe x) := by
  intro s
  have inner := hx (opened s)
  rw [after, probe_run]
  cases h : x (opened s) with
  | ok b s' =>
    rw [after_ok h] at inner
    cases b with
    | true => exact balanced_closed inner rfl rfl
    | false => exact balanced_undone inner
  | error e s' =>
    rw [after_error h] at inner
    exact balanced_undone inner

theorem updateVar_balanced (v : VarId) (f : VarInfo Ty → VarInfo Ty) :
    Keeps Balanced (updateVar v f) :=
  fun s => .of_eq rfl rfl (s.vars.update_locks v f) (s.vars.update_openSnapshots v f)

theorem atDeeperLevel_balanced {x : Nat → CheckM α} (hx : ∀ level, Keeps Balanced (x level)) :
    Keeps Balanced (atDeeperLevel x) := by
  intro s
  have inner := hx s.skolems.enter.2.depth { s with skolems := s.skolems.enter.2 }
  rw [after_atDeeperLevel]
  by_cases full : s.skolems.maxDepth ≤ s.skolems.depth
  · have enter : s.skolems.enter = (false, { s.skolems with exceeded := true }) := by
      simp [DepthCounter.enter, full]
    rw [enter] at inner ⊢
    exact ⟨inner.brackets, inner.iterations, inner.cycles, inner.cutoffs⟩
  · have enter : s.skolems.enter = (true, { s.skolems with depth := s.skolems.depth + 1 }) := by
      simp [DepthCounter.enter, full]
    rw [enter] at inner ⊢
    refine ⟨?_, inner.iterations, inner.cycles, inner.cutoffs⟩
    have level : (((x (s.skolems.depth + 1)).after
        { s with skolems := { s.skolems with depth := s.skolems.depth + 1 } }).skolems.depth) =
        s.skolems.depth + 1 := inner.level
    rw [show s.brackets = { CheckState.brackets
        { s with skolems := { s.skolems with depth := s.skolems.depth + 1 } } with level :=
        s.skolems.depth }
      from rfl, ← inner.brackets]
    simp [CheckState.brackets, DepthCounter.leave, level]

theorem onTable_balanced (x : SymM α) : Keeps Balanced (onTable x) := by
  intro s
  unfold after onTable
  cases EStateM.run x s.table <;> exact .of_eq rfl rfl rfl rfl

theorem balanced_lockstep : Lockstep fun x _ => Keeps Balanced x where
  toSequenced := Keeps.sequenced .refl .trans
  exhausted s := .refl s
  onTable _ := onTable_balanced _
  anyTable := onTable_balanced
  readVars s := .refl s
  addBound v f _ := updateVar_balanced v f
  freshVar origin c s := .of_eq rfl rfl rfl rfl
  atDeeperLevel := atDeeperLevel_balanced
  speculate {_ x _} hx s := by
    rw [after_speculate]
    exact balanced_undone (hx (opened s))

/-- The entry is given back after a computation that kept the brackets within it. -/
theorem balanced_left {entry : Entry QueryKey} {g : Guard QueryKey}
    (outcome : s.guard.Outcome key (.entered entry) g) (h : Balanced { s with guard := g } t) :
    Balanced s (left entry t) := by
  have depth : t.guard.depth = g.depth := h.depth
  have pending : t.guard.pending.elems = g.pending.elems := h.pending
  have iterations : g.iterations ≤ t.guard.iterations := h.iterations
  have cycles : g.cycles ≤ t.guard.cycles := h.cycles
  have cutoffs : g.cutoffs ≤ t.guard.cutoffs := h.cutoffs
  have brackets := h.brackets
  have close : ∀ pending', pending'.elems = s.guard.pending.elems → g.depth = s.guard.depth + 1 →
      g.trackFrom = s.guard.trackFrom → g.maxDepth = s.guard.maxDepth → CheckState.brackets
      { t with guard := { t.guard with depth := t.guard.depth - 1, pending := pending' } } =
        s.brackets := by
    intro pending' hpending hdepth htrack hmax
    rw [show s.brackets = { CheckState.brackets { s with guard := g } with
      depth := s.guard.depth, pending := s.guard.pending.elems, trackFrom := s.guard.trackFrom,
      maxDepth := s.guard.maxDepth } from rfl, ← brackets]
    simp only [CheckState.brackets, Brackets.mk.injEq, true_and, and_true]
    exact ⟨by omega, hpending, h.trackFrom.trans htrack, h.maxDepth.trans hmax⟩
  cases outcome with
  | untracked _ room shallow =>
    refine ⟨close _ pending rfl rfl rfl, ?_, cycles, cutoffs⟩
    exact Nat.le_trans (Nat.le_succ _) iterations
  | tracked key room deep fresh =>
    refine ⟨close _ ?_ rfl rfl rfl, ?_, cycles, cutoffs⟩
    · refine KeySet.elems_erase_cons (pending.trans ?_)
      rw [KeySet.elems_insert, if_neg fresh]
    · exact Nat.le_trans (Nat.le_succ _) iterations

theorem balanced_refused {a : Admission QueryKey} {g : Guard QueryKey}
    (outcome : s.guard.Outcome key a g) (refused : a.isEntered = false) :
    Balanced s { s with guard := g } := by
  cases outcome with
  | tooDeep => exact ⟨rfl, Nat.le_succ _, Nat.le_refl _, Nat.le_succ _⟩
  | cycle => exact ⟨rfl, Nat.le_succ _, Nat.le_succ _, Nat.le_refl _⟩
  | untracked => cases refused
  | tracked => cases refused

/-- Starting and answering a query is not seen by the brackets. -/
theorem Balanced.of_admitted
    {depth : Option Nat} (h : Balanced (admitted enter op depth s) t) :
    Balanced { s with guard := (enter s.guard).2 } t := by
  have from_admitted : Balanced { s with guard := (enter s.guard).2 } (admitted enter op depth s) :=
    .of_eq (by simp) (by simp) (by simp) (by simp)
  exact from_admitted.trans h

theorem Balanced.answered (h : Balanced s t) (b : Bool) : Balanced s (answered op s b t) :=
  h.trans (.of_eq (by simp) (by simp) (by simp) (by simp))

theorem query_balanced (he : Guard.Enters key enter) (hx : Keeps Balanced x) (op : Relation)
    (depth : Option Nat) : Keeps Balanced (reported op depth (guarded enter x)) := by
  intro s
  have outcome := he s.guard
  rw [after, query_run]
  generalize (enter s.guard).1 = r at outcome ⊢
  cases r with
  | entered entry =>
    have inner := (probe_balanced hx (admitted enter op depth s)).of_admitted
    cases hp : probe x (admitted enter op depth s) with
    | ok b s' =>
      rw [after_ok hp] at inner
      exact (balanced_left outcome inner).answered b
    | error e s' =>
      rw [after_error hp] at inner
      exact balanced_left outcome inner
  | cycle | tooDeep =>
    exact ((balanced_refused outcome rfl).trans
      (.of_eq (by simp) (by simp) (by simp) (by simp))).answered false

section Steps

variable (cfg : Config) {q : Queries} (hq : Queries.InStep (fun x _ => Keeps Balanced x) q q)
  (l r : Ty)
include hq

theorem subStep_balanced (depth : Depth) : Keeps Balanced (subStep cfg q l r depth) :=
  balanced_lockstep.subStep hq (balanced_lockstep.solveOne_of_writes hq updateVar_balanced)
    l r depth

theorem sameStep_balanced : Keeps Balanced (sameStep cfg q l r) :=
  balanced_lockstep.sameStep hq (balanced_lockstep.equality_of_writes hq updateVar_balanced) l r

end Steps

end CheckM

namespace Config

open CheckM

variable (cfg : Config)

theorem queriesUpTo_balanced (n : Nat) :
    Queries.InStep (fun x _ => Keeps Balanced x) (cfg.queriesUpTo n) (cfg.queriesUpTo n) := by
  induction n with
  | zero =>
    have none : Keeps Balanced (pure false : CheckM Bool) := Balanced.refl
    exact ⟨fun l r d => query_balanced (Guard.enters_enter (l, r)) none _ _,
      fun l r => query_balanced Guard.enters_enterUntracked none _ _⟩
  | succ n ih =>
    exact ⟨fun l r d => query_balanced (Guard.enters_enter (l, r)) (subStep_balanced cfg ih l r d)
      _ _, fun l r => query_balanced Guard.enters_enterUntracked (sameStep_balanced cfg ih l r) _ _⟩

end Config

end Conformance

import Conformance.Proofs.Offset.Tables

/-! # Checkers on the two sides of an offset

Two checkers mirror one another if their tables do, their variables stand for types that correspond,
and their guards hold corresponding pairs. The brackets around queries look at no more than that;
counters and events are written and not read. -/

namespace Conformance

variable {x y : CheckM Bool} {s s' : CheckState}

namespace Offset

open Relabeling

variable {g : Offset}

/-- Stores of variables of which the second one holds those of the first behind those found before.
What the logs say of earlier writes is left open. -/
def Stores (g : Offset) (l l' : VarLog Ty) : Prop := l'.vars = g.prior ++ l.vars.map g.names.move

namespace Stores

variable {l l' : VarLog Ty} (h : g.Stores l l')
include h

theorem size : l'.vars.size = l.vars.size + g.prior.size := by
  have both := congrArg Array.size h
  rw [Array.size_append, Array.size_map] at both
  omega

theorem info? (v : VarId) : l'.info? (g.names.move v) = g.names.move (l.info? v) := by
  have behind : g.prior.size ≤ v.val + g.prior.size := Nat.le_add_left _ _
  have at' : l'.vars[v.val + g.prior.size]? = (l.vars[v.val]?).map g.names.move := by
    rw [h, Array.getElem?_append_right behind, Nat.add_sub_cancel, Array.getElem?_map]
  exact at'

theorem contains (v : VarId) : l'.contains (g.names.move v) = l.contains v := by
  have far : (g.names.move v).val = v.val + g.prior.size := rfl
  rw [UndoLog.contains, UndoLog.contains, h.size, far]
  simp

theorem update {f f' : VarInfo Ty → VarInfo Ty} (hf : ∀ i, f' (g.names.move i) = g.names.move (f i))
    (v : VarId) : g.Stores (l.update v f) (l'.update (g.names.move v) f') := by
  have behind : g.prior.size ≤ v.val + g.prior.size := Nat.le_add_left _ _
  have far := h.info? v
  cases hi : l.info? v with
  | none =>
    rw [hi] at far
    rwa [UndoLog.update_unknown hi, UndoLog.update_unknown far]
  | some old =>
    rw [hi, move_some] at far
    have set : l'.vars.setIfInBounds (v.val + g.prior.size) (g.names.move (f old)) =
        g.prior ++ (l.vars.setIfInBounds v.val (f old)).map g.names.move := by
      rw [h, Array.map_setIfInBounds, Array.setIfInBounds_append_right behind, Nat.add_sub_cancel]
    rw [Stores, UndoLog.vars_update hi, UndoLog.vars_update far, hf]
    exact set

theorem fresh (origin : Ty) (level : Nat) (c : Constraint Ty) :
    (l'.fresh (g.names.move origin) level (g.names.move c)).1 =
    g.names.move (l.fresh origin level c).1 ∧
      g.Stores
        (l.fresh origin level c).2 (l'.fresh (g.names.move origin) level (g.names.move c)).2 := by
  refine ⟨congrArg VarId.mk h.size, ?_⟩
  have pushed : l'.vars.push (g.names.move { origin, level, constraint := c }) =
      g.prior ++ (l.vars.push { origin, level, constraint := c }).map g.names.move := by
    rw [h, Array.map_push, Array.append_push]
  exact pushed

end Stores

/-! ## States -/

/-- Guards of which the second one is deeper, under limits that are as much deeper, and that hold
corresponding pairs. -/
structure Guards (g : Offset) (G G' : Guard QueryKey) : Prop where
  trackFrom : G'.trackFrom = G.trackFrom + g.nesting
  maxDepth : G'.maxDepth = G.maxDepth + g.nesting
  depth : G'.depth = G.depth + g.nesting
  pending : G'.pending.elems = g.names.move G.pending.elems

/-- Counters at one depth, under one limit. -/
structure Counters (c c' : DepthCounter) : Prop where
  maxDepth : c'.maxDepth = c.maxDepth
  depth : c'.depth = c.depth

/-- Checkers whose tables, variables and guards correspond. -/
structure States (g : Offset) (s s' : CheckState) : Prop where
  table : g.Tables s.table s'.table
  vars : g.Stores s.vars s'.vars
  guard : g.Guards s.guard s'.guard
  skolems : Counters s.skolems s'.skolems

end Offset

instance Offset.mirroredStates : Offset.Mirrored CheckState := ⟨Offset.States⟩

namespace Offset

open CheckM Relabeling

variable {g : Offset} {α : Type} [Movable α]

theorem states_refl (width : g.width = 0) (none : g.prior.size = 0) (level : g.nesting = 0)
    (hs : g.base.Grown s.table) : g.States s s := by
  have vars : s.vars.vars = g.prior ++ s.vars.vars.map g.names.move := by
    rw [Array.size_eq_zero_iff.1 none, Array.empty_append,
      funext (g.move_of_trivial width none), Array.map_id']
  have same : ∀ n : Nat, n = n + g.nesting := fun n => by rw [level, Nat.add_zero]
  exact ⟨tables_refl width none hs, vars, ⟨same _,
    same _, same _, (g.move_of_trivial width none _).symm⟩, rfl, rfl⟩

omit [Movable α] in
theorem Twins.lift {β : Type} {Q : α → β → Prop} {x : SymM α} {y : SymM β} (h : g.Twins Q x y) :
    g.Twins Q (onTable x) (onTable y) := by
  intro s s' (hs : g.States s s')
  have run := h s.table s'.table hs.table
  unfold onTable EStateM.run
  generalize x s.table = r, y s'.table = r' at run ⊢
  cases run with
  | ok answers states => exact .ok answers ⟨states, hs.vars, hs.guard, hs.skolems⟩
  | error states => exact .error ⟨states, hs.vars, hs.guard, hs.skolems⟩

theorem Moves.lift {x y : SymM α} (h : g.Moves x y) : g.Moves (onTable x) (onTable y) :=
    Twins.lift h

theorem varInfo?_moves (v : VarId) : g.Moves (varInfo? v) (varInfo? (g.names.move v)) :=
  fun s s' (hs : g.States s s') => .ok (hs.vars.info? v) hs

theorem updateVar_moves (v : VarId) {f f' : VarInfo Ty → VarInfo Ty}
    (hf : ∀ i, f' (g.names.move i) = g.names.move (f i)) :
    g.Moves (updateVar v f) (updateVar (g.names.move v) f') :=
  fun s s' (hs : g.States s s') => .ok rfl ⟨hs.table, hs.vars.update hf v, hs.guard, hs.skolems⟩

theorem setInst_moves (v : VarId) (inst : Ty) :
    g.Moves (updateVar v (.setInst inst))
      (updateVar (g.names.move v) (.setInst (g.names.move inst))) :=
  updateVar_moves v fun _ => rfl

theorem setSuspended_moves (v : VarId) (suspended : Bool) : g.Moves
    (updateVar v ({ · with suspended })) (updateVar (g.names.move v) ({ · with suspended })) :=
  updateVar_moves v fun _ => rfl

theorem freshVar_moves {n : Nat} (origin : Ty) (constraint : Constraint Ty) : g.MovesFrom
    n (freshVar origin constraint) (freshVar (g.names.move origin) (g.names.move constraint))
      fun _ ty => ∃ v, ty = .var v := by
  intro s s' (hs : g.States s s')
  obtain ⟨fresh, stores⟩ := hs.vars.fresh origin s.skolems.depth constraint
  have stores : g.Stores (s.vars.fresh origin s.skolems.depth constraint).2
      (s'.vars.fresh (g.names.move origin) s'.skolems.depth (g.names.move constraint)).2 := by
    rw [hs.skolems.depth]
    exact stores
  exact .ok ⟨congrArg Ty.var fresh, n, Nat.le_refl _, _, rfl⟩
    ⟨hs.table, stores, hs.guard, hs.skolems⟩

/-! ## Brackets -/

theorem ending_moves {x y : CheckM α} (h : g.Moves x y) {cleanup cleanup' : CheckState → CheckState}
    (hc : ∀ s s', g.States s s' → g.States (cleanup s) (cleanup' s')) :
    g.Moves (ending x cleanup) (ending y cleanup') := by
  intro s s' hs
  have run := h s s' hs
  unfold ending
  generalize x s = r, y s' = r' at run ⊢
  cases run with
  | ok answers states => exact .ok answers (hc _ _ states)
  | error states => exact .error (hc _ _ states)

theorem States.opened (hs : g.States s s') : g.States (CheckM.opened s) (CheckM.opened s') :=
  ⟨hs.table, hs.vars, hs.guard, hs.skolems⟩

omit [Movable α] in
/-- Undone snapshots leave the variables that they were taken from. -/
theorem States.undone {x y : CheckM α} (hx : Keeps Undoes x)
    (hy : Keeps Undoes y) (hs : g.States s s') (after : g.States (x.after (CheckM.opened s))
    (y.after (CheckM.opened s'))) : g.States (CheckM.undone s (x.after (CheckM.opened s)))
    (CheckM.undone s' (y.after (CheckM.opened s'))) := by
  refine ⟨after.table, ?_, after.guard, after.skolems⟩
  rw [undone_vars hx, undone_vars hy]
  exact hs.vars

theorem probe_moves (h : g.Moves x y) (hx : Keeps Undoes x) (hy : Keeps Undoes y) :
    g.Moves (probe x) (probe y) := by
  intro s s' (hs : g.States s s')
  have run := h _ _ hs.opened
  have undone := hs.undone hx hy
  rw [probe_run, probe_run]
  unfold after at undone
  generalize x (opened s) = r, y (opened s') = r' at run undone ⊢
  cases run with
  | error states => exact .error (undone states)
  | @ok a b s1 s1' answers states =>
    have states : g.States s1 s1' := states
    cases answers
    cases a with
    | false => exact .ok rfl (undone states)
    | true => exact .ok rfl ⟨states.table, states.vars, states.guard, states.skolems⟩

theorem speculate_moves {x y : CheckM α} (h : g.Moves x y)
    (hx : Keeps Undoes x) (hy : Keeps Undoes y) : g.Moves (speculate x) (speculate y) := by
  intro s s' (hs : g.States s s')
  have run := h _ _ hs.opened
  have undone := hs.undone hx hy
  show g.Agree _ (ending x (CheckM.undone s) (opened s)) (ending y (CheckM.undone s') (opened s'))
  unfold ending
  unfold after at undone
  generalize x (opened s) = r, y (opened s') = r' at run undone ⊢
  cases run with
  | ok answers states => exact .ok answers (undone states)
  | error states => exact .error (undone states)

end Offset

instance {κ : Type} [Movable κ] : Movable (Entry κ) where
  relabel f h e := ⟨Movable.relabel f h e.tracked⟩
  relabel_id e := by simp [Movable.relabel_id]
  relabel_relabel f f' h h' e := by simp [Movable.relabel_relabel]

instance {κ : Type} [Movable κ] : Movable (Admission κ) where
  relabel f h
    | .entered entry => .entered (Movable.relabel f h entry)
    | .cycle => .cycle
    | .tooDeep => .tooDeep
  relabel_id a := by cases a <;> simp [Movable.relabel_id]
  relabel_relabel f f' h h' a := by cases a <;> simp [Movable.relabel_relabel]

namespace Offset

open CheckM Relabeling

variable {g : Offset} {α : Type} [Movable α]

/-- Ways of entering that correspond, and go one level deeper. -/
def Enters (g : Offset) (enter enter' : Guard QueryKey → Admission QueryKey × Guard QueryKey) :
    Prop :=
  ∀ G G', g.Guards G G' → (enter' G').1 = g.names.move (enter G).1 ∧
    g.Guards (enter G).2 (enter' G').2 ∧ ((enter G).1.isEntered = true → 0 < (enter G).2.depth)

theorem enters_untracked : g.Enters (·.enterUntracked) (·.enterUntracked) := by
  rintro G G' ⟨trackFrom, maxDepth, depth, pending⟩
  have room : G'.maxDepth ≤ G'.depth ↔ G.maxDepth ≤ G.depth := by omega
  by_cases tooDeep : G.maxDepth ≤ G.depth
  · simp only [Guard.enterUntracked, room, if_pos tooDeep]
    exact ⟨rfl, ⟨trackFrom, maxDepth, depth, pending⟩, fun h => absurd h Bool.false_ne_true⟩
  · simp only [Guard.enterUntracked, room, if_neg tooDeep]
    exact ⟨rfl, ⟨trackFrom, maxDepth, by simp only; omega, pending⟩, fun _ => Nat.succ_pos _⟩

theorem enters_key (key : QueryKey) : g.Enters (·.enter key) (·.enter (g.names.move key)) := by
  rintro G G' ⟨trackFrom, maxDepth, depth, pending⟩
  have contains : G'.pending.contains (g.names.move key) = G.pending.contains key := by
    rw [Bool.eq_iff_iff, KeySet.contains_iff, KeySet.contains_iff, pending, mem_move]
  have room : G'.maxDepth ≤ G'.depth ↔ G.maxDepth ≤ G.depth := by omega
  have shallow : G'.depth + 1 < G'.trackFrom ↔ G.depth + 1 < G.trackFrom := by omega
  simp only [Guard.enter, room, shallow, contains]
  by_cases tooDeep : G.maxDepth ≤ G.depth
  · simp only [if_pos tooDeep]
    exact ⟨rfl, ⟨trackFrom, maxDepth, depth, pending⟩, fun h => absurd h Bool.false_ne_true⟩
  by_cases untracked : G.depth + 1 < G.trackFrom
  · simp only [if_neg tooDeep, if_pos untracked]
    exact ⟨rfl, ⟨trackFrom, maxDepth, by simp only; omega, pending⟩, fun _ => Nat.succ_pos _⟩
  by_cases cyclic : G.pending.contains key = true
  · simp only [if_neg tooDeep, if_neg untracked, if_pos cyclic]
    exact ⟨rfl, ⟨trackFrom, maxDepth, depth, pending⟩, fun h => absurd h Bool.false_ne_true⟩
  · simp only [if_neg tooDeep, if_neg untracked, if_neg cyclic]
    have new : key ∉ G.pending.elems := fun mem => cyclic (KeySet.contains_iff.2 mem)
    have new' : g.names.move key ∉ G'.pending.elems := by rwa [pending, mem_move]
    refine ⟨rfl, ⟨trackFrom, maxDepth, by simp only; omega, ?_⟩, fun _ => Nat.succ_pos _⟩
    rw [KeySet.elems_insert, KeySet.elems_insert, if_neg new, if_neg new', pending, move_cons]

theorem erase_move {κ : Type} [Movable κ] [DecidableEq κ]
    (a : κ) (as : List κ) : (g.names.move as).erase (g.names.move a) = g.names.move (as.erase a) :=
    (List.map_erase g.names.move_injective ..).symm

theorem Guards.leave {G G' : Guard QueryKey} (h : g.Guards G G') (within : 0 < G.depth)
    (entry : Entry QueryKey) : g.Guards (G.leave entry) (G'.leave (g.names.move entry)) := by
  have depth : G'.depth - 1 = G.depth - 1 + g.nesting := by rw [h.depth]; omega
  refine ⟨h.trackFrom, h.maxDepth, depth, ?_⟩
  obtain ⟨tracked⟩ := entry
  cases tracked with
  | none => exact h.pending
  | some key =>
    show (G'.pending.erase (g.names.move key)).elems = g.names.move (G.pending.erase key).elems
    rw [KeySet.elems_erase, KeySet.elems_erase, h.pending, erase_move]

theorem guarded_moves {enter enter' : Guard.Entering} (he : g.Enters enter enter')
    (h : g.Moves x y) (hx : Keeps Undoes x) (hy : Keeps Undoes y) (balanced : Keeps Balanced x) :
    g.Moves (guarded enter x) (guarded enter' y) := by
  intro s s' (hs : g.States s s')
  obtain ⟨admission, guard, deeper⟩ := he _ _ hs.guard
  have entered : g.States { s with guard := (enter s.guard).2 }
    { s' with guard := (enter' s'.guard).2 } :=
    ⟨hs.table, hs.vars, guard, hs.skolems⟩
  rw [guarded_run, guarded_run, admission]
  cases ha : (enter s.guard).1 with
  | entered entry =>
    rw [ha] at deeper
    have inner := probe_moves h hx hy _ _ entered
    have depth := (probe_balanced balanced { s with guard := (enter s.guard).2 }).depth
    show g.Agree _ (ending (probe x) (left entry) _)
      (ending (probe y) (left (g.names.move entry)) _)
    unfold ending
    unfold after at depth
    generalize probe x _ = r, probe y _ = r' at inner depth ⊢
    cases inner with
    | @ok a b s1 s1' answers states =>
      have states : g.States s1 s1' := states
      exact .ok answers ⟨states.table, states.vars,
        states.guard.leave (depth ▸ deeper rfl) entry, states.skolems⟩
    | @error e s1 s1' states =>
      have states : g.States s1 s1' := states
      exact .error ⟨states.table, states.vars, states.guard.leave (depth ▸ deeper rfl) entry,
        states.skolems⟩
  | cycle | tooDeep => exact .ok rfl entered

/-- What is told of a query is outside the correspondence, on either side. -/
theorem reported_moves (op : Relation) (depth depth' : Option Nat) (h : g.Moves x y) :
    g.Moves (reported op depth x) (reported op depth' y) := by
  have near : g.Moves (reported op depth x) y := by
    intro s s' (hs : g.States s s')
    rw [reported_run]
    split
    · exact h s s' hs
    · have inner :=
        h { s with queries := s.queries + 1, events := s.events.push (.start s.queries op depth) }
        s' ⟨hs.table, hs.vars, hs.guard, hs.skolems⟩
      show g.Agree _ (EStateM.bind x _ _) _
      unfold EStateM.bind
      generalize x _ = r, y s' = r' at inner ⊢
      cases inner with
      | @ok a b s1 s1' answers states =>
        exact .ok answers ⟨states.table, states.vars, states.guard, states.skolems⟩
      | error states => exact .error states
  intro s s' (hs : g.States s s')
  rw [reported_run op depth' y]
  split
  · exact near s s' hs
  · have inner := near s
      { s' with queries := s'.queries + 1, events := s'.events.push (.start s'.queries op depth') }
      ⟨hs.table, hs.vars, hs.guard, hs.skolems⟩
    show g.Agree _ _ (EStateM.bind y _ _)
    unfold EStateM.bind
    generalize reported op depth x s = r, y _ = r' at inner ⊢
    cases inner with
    | @ok a b s1 s1' answers states =>
      exact .ok answers ⟨states.table, states.vars, states.guard, states.skolems⟩
    | error states => exact .error states

theorem Counters.enter {c c' : DepthCounter} (h : Counters c c') :
    c'.enter.1 = c.enter.1 ∧ Counters c.enter.2 c'.enter.2 := by
  unfold DepthCounter.enter
  rw [h.maxDepth, h.depth]
  split <;> exact ⟨rfl, rfl, rfl⟩

theorem Counters.leave {c c' : DepthCounter} (h : Counters c c') : Counters c.leave c'.leave :=
  ⟨h.maxDepth, congrArg (· - 1) h.depth⟩

theorem atDeeperLevel_moves {x y : Nat → CheckM α} (h : ∀ level, g.Moves (x level) (y level)) :
    g.Moves (atDeeperLevel x) (atDeeperLevel y) := by
  intro s s' (hs : g.States s s')
  obtain ⟨admission, skolems⟩ := hs.skolems.enter
  have entered : g.States { s with skolems := s.skolems.enter.2 }
    { s' with skolems := s'.skolems.enter.2 } :=
    ⟨hs.table, hs.vars, hs.guard, skolems⟩
  rw [atDeeperLevel_run, atDeeperLevel_run, admission, skolems.depth]
  cases s.skolems.enter.1 with
  | true =>
    refine ending_moves (h _) (fun s1 s1' hs1 => ?_) _ _ entered
    exact ⟨hs1.table, hs1.vars, hs1.guard, hs1.skolems.leave⟩
  | false => exact h _ _ _ entered

end Offset

end Conformance

import Conformance.Proofs.Balance
import Mathlib.Data.List.Perm.Basic

/-! # The live entries of a guard

A ledger holds, beside a guard, the entries that were admitted and not yet left. After any calls, in
whatever order entries are left, the guard counts the live entries, and its pending keys are those
of the tracked ones. -/

namespace Conformance

/-- A live entry, with the key that it was asked with, if any, and the level that it raised the
guard to. -/
structure Visit (κ : Type) where
  key : Option κ
  level : Nat
  entry : Entry κ

/-- A guard beside its live entries and the number of entries admitted since its statistics were
reset. -/
structure Ledger (κ : Type) [DecidableEq κ] [Hashable κ] where
  guard : Guard κ
  live : List (Visit κ) := []
  admitted : Nat := 0

variable {κ : Type} [DecidableEq κ] [Hashable κ] {trackFrom maxDepth : Nat}

theorem Guard.Outcome.refused {g g' : Guard κ} {key : Option κ}
    {a : Admission κ} (h : g.Outcome key a g') (denied : a.isDenied = true) :
    g'.depth = g.depth ∧ g'.pending = g.pending := by
  cases h with
  | tooDeep | cycle => exact ⟨rfl, rfl⟩
  | untracked | tracked => cases denied

namespace Ledger

variable {l : Ledger κ}

/-- Note the answer to an attempt to enter. -/
def note (l : Ledger κ) (key : Option κ) : Admission κ × Guard κ → Ledger κ
  | (.entered entry, guard) => ⟨guard, ⟨key, l.guard.depth + 1, entry⟩ :: l.live, l.admitted + 1⟩
  | (_, guard) => { l with guard }

/-- Where calls on a new guard lead. Any live entry may be the next to be left. -/
inductive Reached (trackFrom maxDepth : Nat) : Ledger κ → Prop where
  | new : Reached trackFrom maxDepth { guard := .ofProfile (.custom trackFrom maxDepth) }
  | enter {l : Ledger κ} (h : Reached trackFrom maxDepth l) (k : κ) :
    Reached trackFrom maxDepth (l.note (some k) (l.guard.enter k))
  | enterUntracked {l : Ledger κ} (h : Reached trackFrom maxDepth l) :
    Reached trackFrom maxDepth (l.note none l.guard.enterUntracked)
  | leave {l : Ledger κ} {v : Visit κ} {rest : List (Visit κ)} (h : Reached trackFrom maxDepth l)
    (live : l.live.Perm (v :: rest)) :
    Reached trackFrom maxDepth { l with guard := l.guard.leave v.entry, live := rest }
  | resetStats {l : Ledger κ} (h : Reached trackFrom maxDepth l) :
    Reached trackFrom maxDepth { l with guard := l.guard.resetStats, admitted := 0 }

/-- The guard is as its live entries say. -/
structure Balanced (trackFrom maxDepth : Nat) (l : Ledger κ) : Prop where
  threshold : l.guard.trackFrom = trackFrom
  limit : l.guard.maxDepth = maxDepth
  depth : l.guard.depth = l.live.length
  depth_le : l.guard.depth ≤ maxDepth
  pending : l.guard.pending.elems.Perm (l.live.filterMap (·.entry.tracked))
  tracked : ∀ v ∈ l.live, v.entry.tracked = if trackFrom ≤ v.level then v.key else none
  iterations : l.guard.iterations = l.admitted + l.guard.cycles + l.guard.cutoffs

theorem Balanced.note (h : l.Balanced trackFrom maxDepth)
    {key : Option κ} {enter : Guard κ → Admission κ × Guard κ} (enters : Guard.Enters key enter) :
    (l.note key (enter l.guard)).Balanced trackFrom maxDepth := by
  obtain ⟨rfl, rfl, depth, depth_le, pending, tracked, iterations⟩ := h
  have outcome := enters l.guard
  generalize enter l.guard = answer at outcome ⊢
  obtain ⟨a, g⟩ := answer
  cases outcome with
  | tooDeep | cycle =>
    exact ⟨rfl, rfl, depth, depth_le, pending, tracked, by simp only [Ledger.note]; omega⟩
  | untracked _ room shallow =>
    refine ⟨rfl, rfl, congrArg (· + 1) depth, room,
      pending, List.forall_mem_cons.2 ⟨?_, tracked⟩, ?_⟩
    · cases key with
      | none => exact (ite_self none).symm
      | some k => exact (if_neg (Nat.not_le.2 (shallow k rfl))).symm
    · simp only [Ledger.note]
      omega
  | tracked _ room deep fresh =>
    refine ⟨rfl, rfl, congrArg (· + 1) depth, room,
      ?_, List.forall_mem_cons.2 ⟨(if_pos deep).symm, tracked⟩, ?_⟩
    · simp only [Ledger.note, KeySet.elems_insert, if_neg fresh]
      exact pending.cons _
    · simp only [Ledger.note]
      omega

/-- The key of an entry that is left is pending once, so that it is pending no more. -/
theorem Balanced.leave (h : l.Balanced trackFrom maxDepth) {v : Visit κ} {rest : List (Visit κ)}
    (live : l.live.Perm (v :: rest)) :
    Balanced trackFrom maxDepth { l with guard := l.guard.leave v.entry, live := rest } := by
  have count : l.guard.depth = rest.length + 1 := h.depth.trans live.length_eq
  have keys := h.pending.trans (live.filterMap (·.entry.tracked))
  refine ⟨h.threshold, h.limit, ?_, Nat.le_trans (Nat.sub_le ..) h.depth_le, ?_, fun w mem =>
    ?_, h.iterations⟩
  · simp only [Guard.leave, count, Nat.add_sub_cancel]
  · cases tracked : v.entry.tracked with
    | none => simpa only [Guard.leave, tracked, List.filterMap_cons] using keys
    | some k =>
      rw [List.filterMap_cons, tracked] at keys
      simpa only [Guard.leave, tracked, KeySet.elems_erase, List.erase_cons_head] using keys.erase k
  · exact h.tracked w (live.mem_iff.2 (List.mem_cons_of_mem _ mem))

theorem Reached.balanced (h : Reached trackFrom maxDepth l) : l.Balanced trackFrom maxDepth := by
  induction h with
  | new => exact ⟨rfl, rfl, rfl, Nat.zero_le _, .nil, nofun, rfl⟩
  | enter _ k ih => exact ih.note (Guard.enters_enter k)
  | enterUntracked _ ih => exact ih.note Guard.enters_enterUntracked
  | leave _ live ih => exact ih.leave live
  | resetStats _ ih =>
    exact ⟨ih.threshold, ih.limit, ih.depth, ih.depth_le, ih.pending, ih.tracked, rfl⟩

/-- A guard counts its live entries, and the keys of the tracked ones, which differ from one
another, are its pending keys. An entry is tracked if it was given a key at a level from the
threshold on. Each attempt is counted once, and one that is refused changes only what is counted. -/
theorem guard_accounts_for_entries (h : Reached trackFrom maxDepth l) :
    l.guard.depth = l.live.length ∧ l.guard.depth ≤ maxDepth ∧
    (∀ k, l.guard.pending.contains k = true ↔ ∃ v ∈ l.live, v.entry.tracked = some k) ∧
    (l.live.filterMap (·.entry.tracked)).Nodup ∧
    (∀ v ∈ l.live, v.entry.tracked = if trackFrom ≤ v.level then v.key else none) ∧
    (∀ k, (l.guard.enter k).1.isDenied = true →
      (l.guard.enter k).2.depth = l.guard.depth ∧ (l.guard.enter k).2.pending = l.guard.pending) ∧
    (l.guard.enterUntracked.1.isDenied = true → l.guard.enterUntracked.2.depth = l.guard.depth ∧
      l.guard.enterUntracked.2.pending = l.guard.pending) ∧
    l.guard.iterations = l.admitted + l.guard.cycles + l.guard.cutoffs := by
  have balanced := h.balanced
  refine ⟨balanced.depth, balanced.depth_le, fun k => ?_, balanced.pending.nodup_iff.1
    l.guard.pending.nodup, balanced.tracked, fun k => (Guard.enters_enter k l.guard).refused,
    (Guard.enters_enterUntracked l.guard).refused, balanced.iterations⟩
  rw [KeySet.contains_iff, balanced.pending.mem_iff, List.mem_filterMap]

/-- Key 7 is tracked at level 2; the entry at level 1 is left first, and key 7 is refused at level 2
while it is pending. -/
theorem guard_accounts_for_pending_seven : ∃ l : Ledger Nat, Reached 2 2 l ∧
    l.live.map (·.entry.tracked) = [some 7] ∧ l.guard.cycles = 1 ∧
    l.guard.pending.contains 7 = true ∧ l.guard.iterations = 2 + 1 + 0 := by
  have entered : Reached 2 2 (_ : Ledger Nat) := (Reached.new.enter 7).enter 7
  have refused := (entered.leave (.swap ..)).enter 7
  obtain ⟨-, -, pending, -, -, -, -, iterations⟩ := guard_accounts_for_entries refused
  exact ⟨_, refused, by decide, by decide, (pending 7).2 ⟨_, List.mem_cons_self, by decide⟩,
    iterations.trans (by decide)⟩

end Ledger

end Conformance

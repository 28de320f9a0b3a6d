import Conformance.Proofs.Run
import Conformance.Proofs.Walk.Members

/-! # Properties that operations on types have because their steps have them

Operations on types read the table, enter symbols, copy symbols, and write what they entered or
copied. A property that holds of these steps, of renamings whose lists fit, of giving up for want of
fuel, and of steps one after another, holds of every operation. -/

namespace Conformance

/-- One step of an operation on types that changes the table. -/
inductive SymbolTable.Mapped (t : SymbolTable) : SymbolTable → Prop
  /-- A new symbol has no members. -/
  | enter {r : SymbolRecord} : r.decls = #[] → Mapped t (t.add r)
  | copy (s : SymbolId) : Mapped t (t.add (t.get s))
  /-- What is written is the owner or the info. -/
  | write (s : SymbolId) {f : SymbolRecord → SymbolRecord} :
    (∀ r, (f r).decls = r.decls) → Mapped t (t.update s f)

/-- `P` holds of the steps that operations on types take; of a renaming, where `Fit` holds of its
lists. -/
structure Stepping (P : {α : Type} → SymM α → Prop)
    (Fit : List SymbolId → List SymbolId → Prop) : Prop where
  pure {α : Type} (a : α) : P (Pure.pure a)
  /-- What follows may use how its argument was computed. -/
  bind_run {α β : Type} {x : SymM α} {f : α → SymM β} :
    P x → (∀ a t t', x t = .ok a t' → P (f a)) → P (x >>= f)
  get : P (MonadState.get : SymM SymbolTable)
  exhausted {α : Type} : P (throw .exhausted : SymM α)
  step {α : Type} {g : SymbolTable → α × SymbolTable} :
    (∀ t, SymbolTable.Mapped t (g t).2) → P (modifyGet g)
  baseClasses (s : SymbolId) : P (SymM.baseClasses s)
  fit {src dst : List SymbolId} : src.length ≤ dst.length → Fit src dst
  renamedSymbol? {src dst : List SymbolId} (s : SymbolId) :
    Fit src dst → P (renamedSymbol? src dst s)

/-- The contract of one run with a property, whose answers satisfy `Q`. -/
def OneRun (P : {α : Type} → SymM α → Prop) {α : Type}
    (n : Nat) (x y : SymM α) (Q : Nat → α → Prop) : Prop :=
  x = y ∧ P x ∧ ∀ t a t', x t = .ok a t' → ∃ k, n ≤ k ∧ Q k a

theorem OneRun.holds {P : {α : Type} → SymM α → Prop}
    {α : Type} {x y : SymM α} {Q : Nat → α → Prop} (h : OneRun P 0 x y Q) : P x := h.2.1

namespace Stepping

variable {P : {α : Type} → SymM α → Prop} {Fit : List SymbolId → List SymbolId → Prop}
  (h : Stepping P Fit) {n : Nat} {α β : Type}
include h

omit h in
theorem oneRun {x : SymM α} {Q : Nat → α → Prop} (hx : P x) (hQ : ∀ a, Q n a) : OneRun P n x x Q :=
  ⟨rfl, hx, fun _ a _ _ => ⟨n, Nat.le_refl _, hQ a⟩⟩

theorem oneRun_bind {x y : SymM α} {f f' : α → SymM β} {R : Nat → α → Prop} {Q : Nat → β → Prop}
    (hx : OneRun P n x y R) (hf : ∀ a k, n ≤ k → R k a → OneRun P k (f a) (f' a) Q) :
    OneRun P n (x >>= f) (y >>= f') Q := by
  obtain ⟨rfl, hx, post⟩ := hx
  refine ⟨bind_eq_of_run fun a t t' run => ?_, h.bind_run hx fun a t t' run =>
    ?_, fun t b t' run => ?_⟩
  · obtain ⟨k, hk, ha⟩ := post t a t' run
    exact (hf a k hk ha).1
  · obtain ⟨k, hk, ha⟩ := post t a t' run
    exact (hf a k hk ha).2.1
  · obtain ⟨a, t1, first, second⟩ := exists_of_bind run
    obtain ⟨k, hk, ha⟩ := post t a t1 first
    obtain ⟨k', hk', hb⟩ := (hf a k hk ha).2.2 t1 b t' second
    exact ⟨k', Nat.le_trans hk hk', hb⟩

theorem walk : TableWalk .all .same 0 Fit fun n x y Q => OneRun P n x y Q where
  pure same ha := by
    rw [Relabeling.same_move] at same
    subst same
    exact ⟨rfl, h.pure _, fun t b t' run =>
      ⟨_, Nat.le_refl _, by cases run; exact ha _ (Nat.le_refl _)⟩⟩
  bind hx hf := h.oneRun_bind hx fun a k hk ha => by
    have next := hf a k hk ha
    rwa [Relabeling.same_move] at next
  get_bind {_ _ n _ _ _} hf := h.oneRun_bind (oneRun (Q := fun _ _ => True) h.get fun _ => trivial)
    fun t k hk _ =>
    hf t t (Scope.all_closedAt k t) (Relabeling.reads_same t) hk
  exhausted := ⟨rfl, h.exhausted, fun _ _ _ run => nomatch run⟩
  enter _ _ _ _ := by
    rw [Relabeling.same_move]
    exact oneRun (h.step fun _ => .enter rfl) fun _ => ⟨Nat.zero_le _, trivial⟩
  cloneSymbol {_ s} _ := by
    rw [Relabeling.same_move]
    exact oneRun (h.step fun _ => .copy s) fun _ => ⟨Nat.zero_le _, trivial⟩
  newTypeLike _ _ _ _ := by
    rw [Relabeling.same_move, Relabeling.same_move]
    exact oneRun (h.step fun _ => .enter rfl) fun _ => ⟨Nat.zero_le _, trivial⟩
  setInfo {_ s _} _ _ := by
    rw [Relabeling.same_move, Relabeling.same_move]
    exact oneRun (h.step fun _ => .write s fun _ => rfl) fun _ => trivial
  cloneInto {_ s _} _ _ := by
    rw [Relabeling.same_move, Relabeling.same_move]
    refine oneRun (h.bind_run (h.step fun _ => .copy s) fun c _ _ _ => ?_) fun _ =>
      ⟨Nat.zero_le _, trivial⟩
    exact h.bind_run (h.step fun _ => .write c fun _ => rfl) fun _ _ _ _ => h.pure _
  baseClasses _ := by
    rw [Relabeling.same_move]
    exact oneRun (h.baseClasses _) Scope.all_syms
  fit := h.fit
  renamedSymbol? s fits _ := by
    rw [Relabeling.same_move, Relabeling.same_move, Relabeling.same_move]
    exact oneRun (h.renamedSymbol? s fits) fun _ _ _ => trivial

end Stepping

end Conformance

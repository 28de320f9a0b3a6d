import Conformance.Proofs.Footprint
import Conformance.Proofs.Gap

/-! # Symbols and variables on the far side of an offset

Two runs over the same declarations may also find different variables: one of the checkers has made
some before. It then numbers the variables that it makes from further up, too. An offset moves every
symbol over a gap and every variable up by the number of variables that the second run finds.
Declarations that mention variables stay where they are only if there are none. -/

namespace Conformance

/-- A gap between the symbols that two runs enter, the variables that the second one finds, and the
number of queries that it is nested in beyond the first. -/
structure Offset extends Gap where
  prior : Array (VarInfo Ty)
  closed : prior.size = 0 ∨ base.VarFree
  nesting : Nat

namespace Offset

variable (g : Offset)

def shiftVar (v : VarId) : VarId := ⟨v.val + g.prior.size⟩

/-- What symbols and variables are called on the far side of the offset. -/
def names : Relabeling where
  sym := g.shift
  var := g.shiftVar
  sym_injective := Function.LeftInverse.injective g.back_shift
  var_injective v w same := by
    have same : v.val + g.prior.size = w.val + g.prior.size := congrArg VarId.val same
    exact congrArg VarId.mk (Nat.add_right_cancel same)
  known hs := if_pos (Nat.lt_of_lt_of_le hs g.standalone.known)

theorem move_of_trivial (width : g.width = 0) (none : g.prior.size = 0)
    {α : Type} [Movable α] (a : α) : g.names.move a = a := by
  have symbols : g.names.sym = id := by
    funext s
    show g.shift s = s
    unfold Gap.shift
    rw [width]
    split <;> rfl
  have unknowns : g.names.var = id := by
    funext v
    show g.shiftVar v = v
    unfold shiftVar
    rw [none]
    rfl
  rw [Relabeling.move, symbols, unknowns, Movable.relabel_id]

open Relabeling

variable {g}

/-! ## What is declared stays -/

theorem move_of_lt {s : SymbolId} (hs : s.val < g.base.size) : g.names.move s = s := if_pos hs

theorem move_of_le {s : SymbolId} (hs : g.base.size ≤ s.val) : g.names.move s = ⟨s.val + g.width⟩ :=
  if_neg (Nat.not_lt.2 hs)

theorem move_entered {s : SymbolId} (hs : Scope.entered.In g.base.size s) : g.names.move s = s :=
  move_of_lt (Scope.lt_of_entered g.standalone.known hs)

theorem move_enteredSyms {ss : List SymbolId} (h : Scope.entered.In g.base.size ss) :
    g.names.move ss = ss :=
  (List.map_congr_left fun s hs => move_entered (h s hs)).trans (List.map_id' ss)

/-- What is mentioned moves as in a gap: there are no variables on the far side, or it is no
variable. -/
def Fixes (g : Offset) (m : Mention) : Prop := m.isVar = true → g.prior.size = 0

/-- A type that names what is declared stays, unless it names variables and there are some on the
far side. -/
theorem move_enteredTy {ty : Ty} (h : Scope.entered.In g.base.size ty)
    (fixed : ∀ m ∈ ty.mentions, g.Fixes m) : g.names.move ty = ty := by
  have unknowns : ∀ v : VarId, g.Fixes (.var v) → g.shiftVar v = v :=
    fun v hv => by rw [shiftVar, hv rfl, Nat.add_zero]
  have symbols : ty.relabel g.shift id = ty := Ty.relabel_of_over (fun _ hs => move_entered hs)
    (fun _ _ => rfl) h
  have vars : ty.relabel id g.shiftVar = ty := Ty.relabel_of_over
    (fun _ _ => rfl) unknowns (ty.over_of_mentions fixed)
  exact (Ty.relabel_relabel g.shift id id g.shiftVar ty).symm.trans
    ((congrArg _ vars).trans symbols)

theorem move_enteredTys {tys : List Ty} (h : Scope.entered.In g.base.size tys)
    (fixed : ∀ m ∈ Ty.mentionsAll tys, g.Fixes m) : g.names.move tys = tys := by
  induction tys with
  | nil => rfl
  | cons ty tys ih =>
    obtain ⟨hty, htys⟩ := List.forall_mem_cons.1 h
    obtain ⟨first, rest⟩ := List.forall_mem_append.1 fixed
    rw [move_cons, move_enteredTy hty first, ih htys rest]

theorem fixes_declared (s : SymbolId) : ∀ m ∈ (g.base.get s).declares, g.Fixes m := by
  intro m hm isVar
  obtain none | free := g.closed
  · exact none
  · rw [free.get s m hm] at isVar
    cases isVar

end Offset

/-! ## Runs on the two sides of an offset

Two computations move together over an offset if, from states that mirror one another, both answer
or both fail in the same way, the second one's answer is the first one's on the far side, and the
states mirror one another again. This is composed along the computations' own structure. -/

/-- States that two runs may be in. -/
class Offset.Mirrored (σ : Type) where
  mirror : Offset → σ → σ → Prop

/-- The second state is the first one on the far side of the offset. -/
def Offset.Mirror {σ : Type} [Mirrored σ] (g : Offset) (s s' : σ) : Prop := Mirrored.mirror g s s'

/-- Results of two runs that end alike. -/
inductive Offset.Agree {σ : Type} [Mirrored σ] (g : Offset) {α β : Type} (Q : α → β → Prop) :
    EStateM.Result Failure σ α → EStateM.Result Failure σ β → Prop
  | ok {a : α} {b : β} {s s' : σ} (answers : Q a b)
    (states : g.Mirror s s') : Agree g Q (.ok a s) (.ok b s')
  | error {e : Failure} {s s' : σ} (states : g.Mirror s s') : Agree g Q (.error e s) (.error e s')

namespace Offset

section Runs

variable {σ : Type} [Mirrored σ] (g : Offset) {α β : Type}

/-- Two computations that end alike, with answers related by `Q`. -/
def Twins (Q : α → β → Prop) (x : EStateM Failure σ α) (y : EStateM Failure σ β) : Prop :=
  ∀ s s', g.Mirror s s' → g.Agree Q (x s) (y s')

variable [Movable α]

/-- The second computation is the first one on the far side of the offset. -/
def Moves (x y : EStateM Failure σ α) : Prop := g.Twins (fun a b => b = g.names.move a) x y

/-- Moreover, `Q` holds of the answer from some size on. -/
def MovesFrom (n : Nat) (x y : EStateM Failure σ α) (Q : Nat → α → Prop) : Prop :=
  g.Twins (fun a b => b = g.names.move a ∧ ∃ k, n ≤ k ∧ Q k a) x y

end Runs

section Twins

variable {σ : Type} [Mirrored σ] {g : Offset} {α α' β β' : Type}
  {Q : α → α' → Prop} {Q' : β → β' → Prop}

theorem Twins.pure {a : α} {b : α'} (h : Q a b) : g.Twins Q (Pure.pure a : EStateM Failure σ α)
    (Pure.pure b) :=
  fun _ _ hs => .ok h hs

theorem Twins.bind {x : EStateM Failure σ α} {y : EStateM Failure σ α'}
    {f : α → EStateM Failure σ β} {f' : α' → EStateM Failure σ β'} (hx : g.Twins Q x y)
    (hf : ∀ a b, Q a b → g.Twins Q' (f a) (f' b)) : g.Twins Q' (x >>= f) (y >>= f') := by
  intro s s' hs
  show g.Agree Q' (EStateM.bind x f s) (EStateM.bind y f' s')
  unfold EStateM.bind
  have first := hx s s' hs
  generalize x s = r, y s' = r' at first ⊢
  cases first with
  | ok answers states => exact hf _ _ answers _ _ states
  | error states => exact .error states

theorem Twins.get_bind {f : σ → EStateM Failure σ α} {f' : σ → EStateM Failure σ α'}
    (h : ∀ s s', g.Mirror s s' → g.Twins Q (f s) (f' s')) : g.Twins Q (get >>= f) (get >>= f') :=
  fun s s' hs => h s s' hs s s' hs

theorem Twins.imp {Q2 : α → α' → Prop} {x : EStateM Failure σ α} {y : EStateM Failure σ α'}
    (hx : g.Twins Q x y) (h : ∀ a b, Q a b → Q2 a b) : g.Twins Q2 x y := by
  intro s s' hs
  have run := hx s s' hs
  generalize x s = r, y s' = r' at run ⊢
  cases run with
  | ok answers states => exact .ok (h _ _ answers) states
  | error states => exact .error states

end Twins

section Moves

variable {σ : Type} [Mirrored σ] {g : Offset} {α β : Type} [Movable α] [Movable β]

namespace Moves

theorem pure {a b : α} (h : b = g.names.move a) : g.Moves (Pure.pure a : EStateM Failure σ α)
    (Pure.pure b) := Twins.pure h

theorem fail (e : Failure) : g.Moves (throw e : EStateM Failure σ α) (throw e) :=
    fun _ _ hs => .error hs

theorem get_bind {f f' : σ → EStateM Failure σ α} (h : ∀ s s', g.Mirror s s' →
    g.Moves (f s) (f' s')) : g.Moves (get >>= f) (get >>= f') := Twins.get_bind h

end Moves

section From

variable {n : Nat} {x y : EStateM Failure σ α} {R : Nat → α → Prop} {Q : Nat → β → Prop}

theorem Moves.of (h : g.Moves x y) (hR : ∀ a, R n a) : g.MovesFrom n x y R :=
  Twins.imp h fun a _ same => ⟨same, n, Nat.le_refl _, hR a⟩

theorem MovesFrom.moves (h : g.MovesFrom n x y R) : g.Moves x y :=
    Twins.imp h fun _ _ both => both.1

theorem MovesFrom.pure {a b : α} (same : b = g.names.move a)
    (ha : ∀ k, n ≤ k → R k a) : g.MovesFrom n (Pure.pure a : EStateM Failure σ α) (Pure.pure b) R :=
    Twins.pure ⟨same, n, Nat.le_refl _, ha n (Nat.le_refl _)⟩

theorem MovesFrom.bind {f f' : α → EStateM Failure σ β} (hx : g.MovesFrom n x y R)
    (hf : ∀ a k, n ≤ k → R k a → g.MovesFrom k (f a) (f' (g.names.move a)) Q) :
    g.MovesFrom n (x >>= f) (y >>= f') Q :=
  Twins.bind hx fun a _ ⟨same, k, hk, ha⟩ => same ▸
    Twins.imp (hf a k hk ha) fun _ _ ⟨same', k', hk', hb⟩ =>
    ⟨same', k', Nat.le_trans hk hk', hb⟩

end From

end Moves

end Offset

end Conformance

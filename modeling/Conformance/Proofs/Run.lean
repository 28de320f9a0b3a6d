import Conformance.Checker.Query

/-! # Relations between computations that sequencing keeps -/

namespace Conformance

theorem ite_rel {α : Type} {R : α → α → Prop} {c : Prop} [Decidable c] {x y x' y' : α} (hx : R x x')
    (hy : R y y') : R (if c then x else y) (if c then x' else y') := by
  split
  · exact hx
  · exact hy

theorem ite_run_rel {α : Type}
    {P : CheckM (Except (SolveError Ty) α) → CheckM (Except (SolveError Ty) α) → Prop}
    {c : Prop} [Decidable c] {x y x' y' : SolveM α} (hx : P x.run x'.run)
    (hy : P y.run y'.run) : P (if c then x else y).run (if c then x' else y').run :=
  ite_rel (R := fun x y : SolveM α => P x.run y.run) hx hy

/-- A relation between computations that sequencing keeps. -/
structure Sequenced (m : Type → Type) [Monad m] (P : {α : Type} → m α → m α → Prop) : Prop where
  pure {α : Type} (a : α) : P (Pure.pure a) (Pure.pure a)
  bind {α β : Type} {x y : m α} {f g : α → m β} :
    P x y → (∀ a, P (f a) (g a)) → P (x >>= f) (y >>= g)

namespace Sequenced

variable {m : Type → Type} [Monad m] {P : {α : Type} → m α → m α → Prop} (h : Sequenced m P)
include h

section Lists

variable {α β : Type}

theorem allM {f g : α → m Bool} (hf : ∀ a, P (f a) (g a))
    (xs : List α) : P (xs.allM f) (xs.allM g) := by
  induction xs with
  | nil => exact h.pure _
  | cons a as ih =>
    refine h.bind (hf a) fun b => ?_
    cases b
    · exact h.pure _
    · exact ih

theorem anyM {f g : α → m Bool} (hf : ∀ a, P (f a) (g a))
    (xs : List α) : P (xs.anyM f) (xs.anyM g) := by
  induction xs with
  | nil => exact h.pure _
  | cons a as ih =>
    refine h.bind (hf a) fun b => ?_
    cases b
    · exact ih
    · exact h.pure _

theorem foldlM_mem {f g : β → α → m β} {xs : List α}
    (hf : ∀ b, ∀ a ∈ xs, P (f b a) (g b a)) (b : β) : P (xs.foldlM f b) (xs.foldlM g b) := by
  induction xs generalizing b with
  | nil => exact h.pure _
  | cons a as ih =>
    exact h.bind (hf b a List.mem_cons_self) (ih fun b a ha => hf b a (List.mem_cons_of_mem _ ha))

theorem mapM [LawfulMonad m] {f g : α → m β} (hf : ∀ a, P (f a) (g a))
    (xs : List α) : P (xs.mapM f) (xs.mapM g) := by
  induction xs with
  | nil => simpa only [List.mapM_nil] using h.pure _
  | cons a as ih =>
    rw [List.mapM_cons, List.mapM_cons]
    exact h.bind (hf a) fun _ => h.bind ih fun _ => h.pure _

end Lists

theorem exceptT {ε : Type} : Sequenced (ExceptT ε m) fun x y => P x.run y.run where
  pure a := h.pure _
  bind {α β x y f g} hx hf := by
    refine h.bind hx fun r => ?_
    cases r with
    | ok a => exact hf a
    | error e => exact h.pure _

end Sequenced

/-! ## Runs of a computation and what they keep -/

variable {s s' : CheckState}

section Inversion

variable {ε σ α β : Type} {x : EStateM ε σ α} {f : α → EStateM ε σ β}

theorem exists_of_bind {s s' : σ} {b : β} (h : (x >>= f) s = .ok b s') :
    ∃ a s1, x s = .ok a s1 ∧ f a s1 = .ok b s' := by
  change EStateM.bind x f s = _ at h
  unfold EStateM.bind at h
  generalize x s = r at h ⊢
  cases r with
  | ok a s1 => exact ⟨a, s1, rfl, h⟩
  | error e s1 => cases h

theorem exists_of_run' {s : σ} {a : α} (h : x.run' s = some a) : ∃ s', x s = .ok a s' := by
  delta EStateM.run' EStateM.run at h
  generalize x s = r at h ⊢
  cases r with
  | ok b s' => exact ⟨s', congrArg (EStateM.Result.ok · s') (Option.some.inj h)⟩
  | error e s' => cases h

theorem length_of_mapM {xs : List α} {ys : List β}
    {s s' : σ} (h : xs.mapM f s = .ok ys s') : ys.length = xs.length := by
  induction xs generalizing ys s with
  | nil =>
    rw [List.mapM_nil] at h
    cases h
    rfl
  | cons x xs ih =>
    rw [List.mapM_cons] at h
    obtain ⟨y, s1, -, h⟩ := exists_of_bind h
    obtain ⟨ys', s2, rest, h⟩ := exists_of_bind h
    cases h
    rw [List.length_cons, List.length_cons, ih rest]

/-- Two computations go on alike from what the first part gives. -/
theorem bind_eq_of_run {g : α → EStateM ε σ β} (h : ∀ a s s', x s = .ok a s' → f a = g a) :
    x >>= f = x >>= g := by
  funext s
  show EStateM.bind x f s = EStateM.bind x g s
  unfold EStateM.bind
  cases run : x s with
  | ok a s' => exact congrFun (h a s s' run) s'
  | error e s' => rfl

end Inversion

/-- A way to ask the guard for entry. -/
abbrev Guard.Entering := Guard QueryKey → Admission QueryKey × Guard QueryKey

/-- Stands for the variable from now on. -/
abbrev VarInfo.setInst (ty : Ty) (info : VarInfo Ty) : VarInfo Ty :=
    { info with constraint := info.constraint.setInst ty }

namespace CheckM

variable {α β : Type} {x : CheckM α} {a : α}

/-- The state that a computation ends in, with or without an answer. -/
def after (x : CheckM α) (s : CheckState) : CheckState :=
  match x s with
  | .ok _ s' => s'
  | .error _ s' => s'

/-- What a computation answers; none if it fails. -/
def answer? (x : CheckM α) (s : CheckState) : Option α :=
  match x s with
  | .ok a _ => some a
  | .error .. => none

theorem answer?_ok (h : x s = .ok a s') : x.answer? s = some a := by
  rw [answer?, h]

theorem answer?_error {e : Failure} (h : x s = .error e s') : x.answer? s = none := by
  rw [answer?, h]

theorem after_ok (h : x s = .ok a s') : x.after s = s' := by
  rw [after, h]

theorem after_error {e : Failure} (h : x s = .error e s') : x.after s = s' := by
  rw [after, h]

theorem run_of_answer? (h : x.answer? s = some a) : x s = .ok a (x.after s) := by
  unfold answer? at h
  unfold after
  cases hx : x s <;> simp_all

theorem bind_ok {ε σ : Type} {x : EStateM ε σ α} {f : α → EStateM ε σ β}
    {s s' : σ} (h : x s = .ok a s') : (x >>= f) s = f a s' := by
  show EStateM.bind x f s = _
  rw [EStateM.bind, h]

theorem bind_error {ε σ : Type} {x : EStateM ε σ α} {f : α → EStateM ε σ β} {s s' : σ} {e : ε}
    (h : x s = .error e s') : (x >>= f) s = .error e s' := by
  show EStateM.bind x f s = _
  rw [EStateM.bind, h]

theorem varInfo?_run (v : VarId) (f : Option (VarInfo Ty) → CheckM β) (s : CheckState) :
    (varInfo? v >>= f) s = f (s.vars.info? v) s := rfl

theorem readTable_bind (f : SymbolTable → CheckM α)
    (s : CheckState) : (readTable >>= f) s = f s.table s := rfl

theorem exists_of_onTable {x : SymM α} (h : onTable x s = .ok a s') :
    ∃ t', x s.table = .ok a t' ∧ s' = { s with table := t' } := by
  unfold onTable at h
  cases hx : x s.table with
  | ok a' t' =>
    rw [EStateM.run, hx] at h
    cases h
    exact ⟨t', rfl, rfl⟩
  | error e t' =>
    rw [EStateM.run, hx] at h
    cases h

theorem after_ending (x : CheckM α) (cleanup : CheckState → CheckState) (s : CheckState) :
    (ending x cleanup).after s = cleanup (x.after s) := by
  unfold after ending
  cases x s <;> rfl

theorem atDeeperLevel_run (x : Nat → CheckM α) (s : CheckState) : atDeeperLevel x s =
      (if s.skolems.enter.1 then ending (x s.skolems.enter.2.depth)
        (fun s' => { s' with skolems := s'.skolems.leave })
      else x s.skolems.enter.2.depth) { s with skolems := s.skolems.enter.2 } := rfl

theorem after_atDeeperLevel (x : Nat → CheckM α) (s : CheckState) : (atDeeperLevel x).after s =
      (if s.skolems.enter.1 then fun s' => { s' with skolems := s'.skolems.leave } else id)
        ((x s.skolems.enter.2.depth).after { s with skolems := s.skolems.enter.2 }) := by
  rw [after, atDeeperLevel_run]
  cases s.skolems.enter.1 with
  | true => exact after_ending _ _ _
  | false => rfl

/-! ## Queries -/

/-- The state within a query that the guard has answered. -/
def admitted (enter : Guard QueryKey → Admission QueryKey × Guard QueryKey) (op : Relation)
    (depth : Option Nat) (s : CheckState) : CheckState :=
  if s.guard.isActive then { s with guard := (enter s.guard).2 }
  else { s with
    guard := (enter s.guard).2
    queries := s.queries + 1
    events := s.events.push (.start s.queries op depth) }

def left (entry : Entry QueryKey) (s : CheckState) : CheckState :=
  { s with guard := s.guard.leave entry }

/-- The state after a query that began in `s` and ended in `s'` with an answer. -/
def answered (op : Relation) (s : CheckState) (result : Bool) (s' : CheckState) : CheckState :=
  if s.guard.isActive then s'
  else { s' with
    events := s'.events.push (.finish s.queries op result s'.guard.iterations s'.guard.cycles) }

section Query

variable (enter : Guard.Entering) (op : Relation) (depth : Option Nat) (s s' : CheckState)

@[simp] theorem admitted_table : (admitted enter op depth s).table = s.table := by
  unfold admitted; split <;> rfl

@[simp] theorem admitted_vars : (admitted enter op depth s).vars = s.vars := by
  unfold admitted; split <;> rfl

@[simp] theorem admitted_skolems : (admitted enter op depth s).skolems = s.skolems := by
  unfold admitted; split <;> rfl

@[simp] theorem admitted_guard : (admitted enter op depth s).guard = (enter s.guard).2 := by
  unfold admitted; split <;> rfl

@[simp] theorem answered_table (b : Bool) : (answered op s b s').table = s'.table := by
  unfold answered; split <;> rfl

@[simp] theorem answered_vars (b : Bool) : (answered op s b s').vars = s'.vars := by
  unfold answered; split <;> rfl

@[simp] theorem answered_skolems (b : Bool) : (answered op s b s').skolems = s'.skolems := by
  unfold answered; split <;> rfl

@[simp] theorem answered_guard (b : Bool) : (answered op s b s').guard = s'.guard := by
  unfold answered; split <;> rfl

end Query

/-- A probe within the guard is what the guard's answer asks for, from the state that the guard
leaves. -/
theorem guarded_run (enter : Guard.Entering) (x : CheckM Bool) (s : CheckState) :
    guarded enter x s = (match (enter s.guard).1 with
      | .entered entry => ending (probe x) (left entry)
      | .cycle => pure false
      | .tooDeep => pure false : CheckM Bool) { s with guard := (enter s.guard).2 } := rfl

/-- Where no query is live, the events of `x` stand between its own two. -/
theorem reported_run (op : Relation) (depth : Option Nat) (x : CheckM Bool) (s : CheckState) :
    reported op depth x s = if s.guard.isActive then x s else
      (x >>= fun result => do
        modify fun s' => { s' with
          events :=
            s'.events.push (.finish s.queries op result s'.guard.iterations s'.guard.cycles) }
        return result) { s with
          queries := s.queries + 1
          events := s.events.push (.start s.queries op depth) } := by
  show (if s.guard.isActive then _ else _ : CheckM Bool) s = _
  split <;> rfl

/-- A reported probe within the guard, from the guard's answer on. -/
theorem query_run (enter : Guard.Entering) (op : Relation)
    (depth : Option Nat) (x : CheckM Bool) (s : CheckState) :
    reported op depth (guarded enter x) s = match (enter s.guard).1 with
      | .entered entry => match probe x (admitted enter op depth s) with
        | .ok b s' => .ok b (answered op s b (left entry s'))
        | .error e s' => .error e (left entry s')
      | _ => .ok false (answered op s false (admitted enter op depth s)) := by
  -- what the guard's answer leads to, from any state with the guard of `s`
  have inner : ∀ t : CheckState, t.guard = s.guard →
      guarded enter x t = match (enter s.guard).1 with
        | .entered entry => ending (probe x) (left entry) { t with guard := (enter s.guard).2 }
        | _ => .ok false { t with guard := (enter s.guard).2 } := by
    intro t ht
    rw [← ht, guarded_run]
    cases (enter t.guard).1 <;> rfl
  rw [reported_run]
  unfold admitted answered
  cases s.guard.isActive with
  | true =>
    simp only [if_true, inner s rfl]
    cases (enter s.guard).1 with
    | entered entry => unfold ending; simp only; cases probe x _ <;> rfl
    | _ => rfl
  | false =>
    simp only [Bool.false_eq_true, if_false]
    have run := inner { s with
      queries := s.queries + 1, events := s.events.push (.start s.queries op depth) } rfl
    generalize (enter s.guard).1 = r at run ⊢
    cases r with
    | entered entry =>
      unfold ending at run
      simp only at run ⊢
      cases hp : probe x { s with
          guard := (enter s.guard).2
          queries := s.queries + 1
          events := s.events.push (.start s.queries op depth) } with
      | ok b s' => rw [hp] at run; rw [bind_ok run]; rfl
      | error e s' => rw [hp] at run; rw [bind_error run]
    | cycle => rw [bind_ok run]; rfl
    | tooDeep => rw [bind_ok run]; rfl

/-- The end state is related to the first one, whatever the first one is. -/
def Keeps (R : CheckState → CheckState → Prop) (x : CheckM α) : Prop := ∀ s, R s (x.after s)

theorem Keeps.sequenced {R : CheckState → CheckState → Prop} (refl : ∀ s, R s s)
    (trans : ∀ {s1 s2 s3}, R s1 s2 → R s2 s3 → R s1 s3) : Sequenced CheckM fun x _ =>
    Keeps R x where
  pure _ s := refl s
  bind {_ _ x _ f _} hx hf s := by
    have hxs := hx s
    cases h : x s with
    | ok a s' =>
      rw [after_ok h] at hxs
      rw [after, bind_ok h]
      exact trans hxs (hf a s')
    | error e s' =>
      rw [after_error h] at hxs
      rwa [after, bind_error h]

end CheckM

end Conformance

import Conformance.Proofs.Run
import Mathlib.Order.Defs.Unbundled

/-! # Computations along an order of states

States only move on along a preorder, so what lasts along it may be used in every later step. -/

namespace Conformance

variable {ε σ α β : Type}

/-- From `s` and the states after it along `R`, `x` moves on along `R`, with an answer as `Q` says
of the state then. It fails only if `ok` does not hold. -/
def Along (R : σ → σ → Prop) (ok : Prop) (s : σ) (x : EStateM ε σ α) (Q : σ → α → Prop) : Prop :=
  ∀ s1, R s s1 → match x s1 with
    | .ok a s2 => R s1 s2 ∧ Q s2 a
    | .error .. => ¬ ok

/-- What `Q` says of a state stays true along `R`. -/
def Lasts (R : σ → σ → Prop) (Q : σ → α → Prop) : Prop := ∀ ⦃s s' a⦄, R s s' → Q s a → Q s' a

namespace Along

variable {R : σ → σ → Prop} [IsPreorder σ R] {ok : Prop}
  {s s1 : σ} {x y : EStateM ε σ α} {Q : σ → α → Prop}

theorem later (hx : Along R ok s x Q) (h : R s s1) : Along R ok s1 x Q :=
    fun s2 h' => hx s2 (trans_of R h h')

theorem pure {a : α} (h : ∀ s1, R s s1 → Q s1 a) : Along R ok s (Pure.pure a : EStateM ε σ α) Q :=
  fun s1 h1 => ⟨refl_of R s1, h s1 h1⟩

omit [IsPreorder σ R] in
theorem fail {e : ε} (h : ¬ ok) : Along R ok s (throw e : EStateM ε σ α) Q := fun _ _ => h

theorem bind {f : α → EStateM ε σ β} {Q' : σ → β → Prop} (hx : Along R ok s x Q)
    (hf : ∀ a s1, R s s1 → Q s1 a → Along R ok s1 (f a) Q') : Along R ok s (x >>= f) Q' := by
  intro s1 h1
  have run := hx s1 h1
  show match EStateM.bind x f s1 with | .ok b s2 => R s1 s2 ∧ Q' s2 b | .error .. => ¬ ok
  unfold EStateM.bind
  generalize x s1 = r at run ⊢
  cases r with
  | error e s2 => exact run
  | ok a s2 =>
    have rest := hf a s2 (trans_of R h1 run.1) run.2 s2 (refl_of R s2)
    show match f a s2 with | .ok b s3 => R s1 s3 ∧ Q' s3 b | .error .. => ¬ ok
    cases hr' : f a s2 with
    | error e s3 =>
      rw [hr'] at rest
      exact rest
    | ok b s3 =>
      rw [hr'] at rest
      exact ⟨trans_of R run.1 rest.1, rest.2⟩

theorem get_bind {f : σ → EStateM ε σ α} (hf : ∀ s1, R s s1 → Along R ok s1 (f s1) Q) :
    Along R ok s (get >>= f) Q :=
  fun s1 h1 => hf s1 h1 s1 (refl_of R s1)

omit [IsPreorder σ R] in
theorem ite {c : Prop} [Decidable c] (hx : c → Along R ok s x Q) (hy : ¬ c → Along R ok s y Q) :
    Along R ok s (if c then x else y) Q := by
  split
  next hc => exact hx hc
  next hc => exact hy hc

omit [IsPreorder σ R] in
theorem imp {ok' : Prop} {Q' : σ → α → Prop} (hx : Along R ok' s x Q') (hok : ok → ok')
    (hQ : ∀ s1, R s s1 → ∀ a, Q' s1 a → Q s1 a) [IsTrans σ R] : Along R ok s x Q := by
  intro s1 h1
  have run := hx s1 h1
  generalize x s1 = r at run ⊢
  cases r with
  | error e s2 => exact fun h => run (hok h)
  | ok a s2 => exact ⟨run.1, hQ s2 (trans_of R h1 run.1) a run.2⟩

omit [IsPreorder σ R] in
/-- A computation that keeps to a finer order. -/
theorem of_finer {R' : σ → σ → Prop} [IsPreorder σ R'] (hx : ∀ s1, R s s1 → Along R' ok s1 x Q)
    (hR : ∀ s1 s2, R s s1 → R' s1 s2 → R s1 s2) : Along R ok s x Q := by
  intro s1 h1
  have run := hx s1 h1 s1 (refl_of R' s1)
  generalize x s1 = r at run ⊢
  cases r with
  | error e s2 => exact run
  | ok a s2 => exact ⟨hR _ _ h1 run.1, run.2⟩

theorem mapM {f : α → EStateM ε σ β} {Q : σ → β → Prop} {xs : List α}
    (hQ : Lasts R Q) (hf : ∀ a ∈ xs, Along R ok s (f a) Q) : Along R ok s (xs.mapM f) fun s ys =>
    ys.length = xs.length ∧ ∀ y ∈ ys, Q s y := by
  induction xs generalizing s with
  | nil => exact .pure fun _ _ => ⟨rfl, nofun⟩
  | cons a as ih =>
    rw [List.mapM_cons]
    refine (hf a List.mem_cons_self).bind fun y s1 h1 hy => ?_
    refine (ih fun b mem => (hf b (List.mem_cons_of_mem _ mem)).later h1).bind fun ys s2 h2 hys =>
      .pure fun s3 h3 => ?_
    refine ⟨congrArg Nat.succ hys.1, List.forall_mem_cons.2
      ⟨hQ (trans_of R h2 h3) hy, fun z mem => hQ h3 (hys.2 z mem)⟩⟩

theorem forM {f : α → EStateM ε σ PUnit} {Q : σ → α → Prop} {xs : List α} (hQ : Lasts R Q)
    (hf : ∀ a ∈ xs, Along R ok s (f a) fun s _ => Q s a) : Along R ok s (xs.forM f) fun s _ =>
    ∀ a ∈ xs, Q s a := by
  induction xs generalizing s with
  | nil => exact .pure fun _ _ => nofun
  | cons a as ih =>
    refine (hf a List.mem_cons_self).bind fun _ s1 h1 ha => ?_
    refine (ih fun b mem => (hf b (List.mem_cons_of_mem _ mem)).later h1).imp id fun s2 h2 _ has =>
      ?_
    exact List.forall_mem_cons.2 ⟨hQ h2 ha, has⟩

end Along

end Conformance

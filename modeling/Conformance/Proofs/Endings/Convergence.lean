import Conformance.Proofs.Run

/-! # Computations that end

An operation is given fuel, and it gives no answer when the fuel runs out. It ends if some amount of
fuel is enough: then every larger amount gives the same answer, and no smaller amount gives
another. -/

namespace Conformance

namespace SymM

variable {α β : Type} {f : Nat → α → SymM β} {Q : β → SymbolTable → Prop}

/-- With enough fuel `x` gives `a` and leaves `t'`; with less it gives that or nothing. -/
structure Converges (x : Nat → SymM α) (t : SymbolTable) (a : α) (t' : SymbolTable) : Prop where
  enough : ∃ n, ∀ m, n ≤ m → x m t = .ok a t'
  only : ∀ m b s, x m t = .ok b s → b = a ∧ s = t'

/-- `x` ends, with an answer and a table that are as `P` says. -/
def Ends (t : SymbolTable) (x : Nat → SymM α) (P : α → SymbolTable → Prop) : Prop :=
  ∃ a t', Converges x t a t' ∧ P a t'

variable {x y : Nat → SymM α} {t t' : SymbolTable} {a : α}

namespace Converges

theorem always (run : ∀ m, x m t = .ok a t') : Converges x t a t' := by
  refine ⟨⟨0, fun m _ => run m⟩, fun m b s h => ?_⟩
  rw [run] at h
  cases h
  exact ⟨rfl, rfl⟩

theorem const {x : SymM α} (run : x t = .ok a t') : Converges (fun _ => x) t a t' :=
    .always fun _ => run

theorem bind {b : β} {t'' : SymbolTable} (hx : Converges x t a t')
    (hf : Converges (f · a) t' b t'') : Converges (fun n => x n >>= f n) t b t'' := by
  obtain ⟨n1, enough1⟩ := hx.enough
  obtain ⟨n2, enough2⟩ := hf.enough
  refine ⟨⟨max n1 n2, fun m le => ?_⟩, fun m c s h => ?_⟩
  · have run := enough1 m (by omega)
    rw [CheckM.bind_ok run]
    exact enough2 m (by omega)
  · obtain ⟨a', s1, run, rest⟩ := exists_of_bind h
    obtain ⟨rfl, rfl⟩ := hx.only m a' s1 run
    exact hf.only m c s rest

/-- One unit of fuel more, where none gives no answer. -/
theorem step (zero : ∀ b s, x 0 t ≠ .ok b s) (h : Converges (fun n => x (n + 1)) t a t') :
    Converges x t a t' := by
  obtain ⟨n, enough⟩ := h.enough
  refine ⟨⟨n + 1, fun m le => ?_⟩, fun m b s run => ?_⟩
  · obtain ⟨k, rfl⟩ : ∃ k, m = k + 1 := ⟨m - 1, by omega⟩
    exact enough k (by omega)
  · cases m with
    | zero => exact absurd run (zero b s)
    | succ m => exact h.only m b s run

theorem unique {a' : α} {t'' : SymbolTable} (h : Converges x t a t')
    (h' : Converges x t a' t'') : a' = a ∧ t'' = t' := by
  obtain ⟨n, enough⟩ := h'.enough
  exact h.only n a' t'' (enough n (Nat.le_refl n))

theorem holds {P : α → Prop} (h : Converges x t a t')
    (h' : ∃ a, Converges x t a t' ∧ P a) : P a := by
  obtain ⟨a, ends, ha⟩ := h'
  obtain ⟨rfl, -⟩ := ends.unique h
  exact ha

end Converges

namespace Ends

variable {P : α → SymbolTable → Prop}

theorem const {x : SymM α} (run : x t = .ok a t') (h : P a t') : Ends t (fun _ => x) P :=
    ⟨a, t', .const run, h⟩

theorem pure (h : P a t) : Ends t (fun _ => Pure.pure a) P := .const rfl h

theorem bind (hx : Ends t x P)
    (hf : ∀ a t', P a t' → Ends t' (f · a) Q) : Ends t (fun n => x n >>= f n) Q := by
  obtain ⟨a, t', ends, h⟩ := hx
  obtain ⟨b, t'', ends', h'⟩ := hf a t' h
  exact ⟨b, t'', ends.bind ends', h'⟩

theorem through (hx : Converges x t a t')
    (hf : Ends t' (f · a) Q) : Ends t (fun n => x n >>= f n) Q := by
  obtain ⟨b, t'', ends, h⟩ := hf
  exact ⟨b, t'', hx.bind ends, h⟩

theorem after {x : SymM α} (run : x t = .ok a t')
    (hf : Ends t' (f · a) Q) : Ends t (fun n => x >>= f n) Q := .through (.const run) hf

theorem ite {c : Prop} [Decidable c] (hx : c → Ends t x P) (hy : ¬ c → Ends t y P) :
    Ends t (fun n => if c then x n else y n) P := by
  by_cases hc : c
  · simp only [if_pos hc]
    exact hx hc
  · simp only [if_neg hc]
    exact hy hc

theorem step (zero : ∀ b s, x 0 t ≠ .ok b s) (h : Ends t (fun n => x (n + 1)) P) : Ends t x P := by
  obtain ⟨a, t', ends, h⟩ := h
  exact ⟨a, t', ends.step zero, h⟩

theorem imp {Q : α → SymbolTable → Prop} (hx : Ends t x P)
    (h : ∀ a t', P a t' → Q a t') : Ends t x Q := by
  obtain ⟨a, t', ends, ha⟩ := hx
  exact ⟨a, t', ends, h a t' ha⟩

/-- After what leaves the table as it is. -/
theorem onward {P : α → Prop} (hx : Ends t x fun a t' => t' = t ∧ P a)
    (hf : ∀ a, P a → Ends t (f · a) Q) : Ends t (fun n => x n >>= f n) Q := by
  refine .bind hx fun a t' ⟨same, ha⟩ => ?_
  subst same
  exact hf a ha

theorem converges {P : α → Prop} (hx : Ends t x fun a t' => t' = t ∧ P a) :
    ∃ a, Converges x t a t ∧ P a := by
  obtain ⟨a, t', ends, rfl, h⟩ := hx
  exact ⟨a, ends, h⟩

theorem foldlM {f : Nat → β → α → SymM β} {I : SymbolTable → Prop} {as : List α}
    (hf : ∀ b, ∀ a ∈ as, ∀ t, I t → Ends t (f · b a) fun _ => I) {b : β} (ht : I t) :
    Ends t (fun n => as.foldlM (f n) b) fun _ => I := by
  induction as generalizing b t with
  | nil => exact .pure ht
  | cons a as ih =>
    exact .bind (hf b a List.mem_cons_self t ht) fun b' t' ht' =>
      ih (fun b c mem => hf b c (List.mem_cons_of_mem _ mem)) ht'

end Ends

end SymM

end Conformance

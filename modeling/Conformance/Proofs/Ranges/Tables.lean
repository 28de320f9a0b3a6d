import Conformance.Proofs.Attains
import Conformance.Proofs.Stepping

/-! # Operations on types fail only for want of fuel

A renaming fails where a symbol is found at a position that the list of replacements does not have.
Lists that are as long as those they replace have every position, and the operations rename with no
others: copies are made one for each symbol. So what is left of the ways to fail is fuel. -/

namespace Conformance

section Computations

variable {σ α β : Type} {x : EStateM Failure σ α}

/-- The computation gives no answer only for want of fuel. -/
def Unfailing (x : EStateM Failure σ α) : Prop := ∀ s e s', x s = .error e s' → e = .exhausted

namespace Unfailing

theorem of_answers (h : ∀ s, ∃ a s', x s = .ok a s') : Unfailing x := by
  intro s e s' run
  obtain ⟨a, s1, answer⟩ := h s
  rw [answer] at run
  cases run

theorem pure (a : α) : Unfailing (Pure.pure a : EStateM Failure σ α) :=
    of_answers fun s => ⟨a, s, rfl⟩

theorem get : Unfailing (MonadState.get : EStateM Failure σ σ) := of_answers fun s => ⟨s, s, rfl⟩

theorem exhausted : Unfailing (throw .exhausted : EStateM Failure σ α) := by
  intro s e s' h
  cases h
  rfl

theorem bind_run {f : α → EStateM Failure σ β} (hx : Unfailing x)
    (hf : ∀ a s s', x s = .ok a s' → Unfailing (f a)) : Unfailing (x >>= f) := by
  intro s e s' h
  change EStateM.bind x f s = _ at h
  unfold EStateM.bind at h
  cases run : x s with
  | ok a s1 =>
    rw [run] at h
    exact hf a s s1 run s1 e s' h
  | error e1 s1 =>
    rw [run] at h
    cases h
    exact hx s e s' run

theorem bind {f : α → EStateM Failure σ β} (hx : Unfailing x) (hf : ∀ a, Unfailing (f a)) :
    Unfailing (x >>= f) := hx.bind_run fun a _ _ _ => hf a

theorem sequenced : Sequenced (EStateM Failure σ) fun x _ => Unfailing x := ⟨pure, bind⟩

theorem ite {c : Prop} [Decidable c] {y : EStateM Failure σ α}
    (hx : Unfailing x) (hy : Unfailing y) : Unfailing (if c then x else y) := by
  split
  · exact hx
  · exact hy

end Unfailing

end Computations

namespace SymM

theorem linearize_unfailing (n : Nat) (active : List SymbolId)
    (s : SymbolId) : Unfailing (linearize n active s) :=
  .of_answers fun t => by
    obtain ⟨cs, t', run, -⟩ := exists_linearize n active s t
    exact ⟨cs, t', run⟩

end SymM

/-- A step answers. -/
theorem unfailing : Stepping (fun x => Unfailing x) fun src dst => src.length ≤ dst.length where
  pure := .pure
  bind_run := .bind_run
  get := .get
  exhausted := .exhausted
  step _ := .of_answers fun _ => ⟨_, _, rfl⟩
  baseClasses _ := SymM.linearize_unfailing _ _ _
  fit fits := fits
  -- lists that fit have a replacement for every symbol
  renamedSymbol? s fits := by
    obtain ⟨-, eq⟩ | ⟨d, -, eq⟩ := renamedSymbol?_cases fits s
    all_goals
      rw [eq]
      exact .pure _

theorem isNotNull_unfailing (fuel : Nat) (ty : Ty) : Unfailing (isNotNull fuel ty) :=
  (isNotNull_walks unfailing.walk (Scope.all_ty ty)).holds

theorem isStable_unfailing (fuel : Nat) (ty : Ty) : Unfailing (isStable fuel ty) :=
  (isStable_walks unfailing.walk (Scope.all_ty ty)).holds

theorem baseClassesOf_unfailing (fuel : Nat) (ty : Ty) : Unfailing (baseClassesOf fuel ty) :=
  (baseClassesOf_walks unfailing.walk (Scope.all_ty ty)).holds

theorem findMember_unfailing (fuel : Nat) (ty : Ty)
    (name : String) : Unfailing (findMember fuel ty name) :=
  (findMember_walks unfailing.walk (Scope.all_ty ty) name).holds

theorem length_of_cloneSymbols {fuel : Nat} {syms copies : List SymbolId} {t t' : SymbolTable}
    (h : cloneSymbols fuel syms t = .ok copies t') : copies.length = syms.length := by
  obtain ⟨copies', t1, made, h⟩ := exists_of_bind h
  obtain ⟨-, t2, -, h⟩ := exists_of_bind h
  cases h
  exact length_of_mapM made

end Conformance

import Conformance.Proofs.Declarations
import Conformance.Proofs.Endings.FirstOrder

/-! # What maps over types keep

Substitutions change a table in three ways: they enter symbols, copy symbols, and write what they
entered or copied. A relation between tables that holds of these steps, and of steps one after
another, holds of every substitution, whether it gives a type or fails. -/

namespace Conformance

namespace SymM

variable {α : Type}

/-- Whatever the table, the one that the operation ends with is related to it. -/
def Respects (R : SymbolTable → SymbolTable → Prop) (x : SymM α) : Prop := ∀ t, R t (x.after t)

end SymM

/-- The relation holds of the steps that maps over types take. -/
structure KeptByMaps (R : SymbolTable → SymbolTable → Prop) : Prop where
  refl (t : SymbolTable) : R t t
  trans {t1 t2 t3 : SymbolTable} : R t1 t2 → R t2 t3 → R t1 t3
  /-- A new symbol has no members. -/
  enter (t : SymbolTable) {r : SymbolRecord} : r.decls = #[] → R t (t.add r)
  copy (t : SymbolTable) (s : SymbolId) : R t (t.add (t.get s))
  /-- What is written is the owner or the info. -/
  write (t : SymbolTable) (s : SymbolId) {f : SymbolRecord → SymbolRecord} :
    (∀ r, (f r).decls = r.decls) → R t (t.update s f)

theorem SymM.Respects.bind_run {α β : Type} {R : SymbolTable → SymbolTable → Prop}
    (hR : KeptByMaps R) {x : SymM α} {f : α → SymM β} (hx : x.Respects R)
    (hf : ∀ a t t', x t = .ok a t' → (f a).Respects R) : (x >>= f).Respects R := by
  intro t
  have first := hx t
  change R t (SymM.after (EStateM.bind x f) t)
  unfold SymM.after at first ⊢
  unfold EStateM.bind
  cases hr : x t with
  | ok a t1 =>
    rw [hr] at first
    exact hR.trans first (hf a t t1 hr t1)
  | error e t1 =>
    rw [hr] at first
    exact first

open SymM

/-- A map that keeps the relation. -/
def TypeMap.Respects (R : SymbolTable → SymbolTable → Prop) (f : TypeMap) : Prop :=
    ∀ ty, (f ty).Respects R

structure Rebinding.Respects (R : SymbolTable → SymbolTable → Prop) (rb : Rebinding) : Prop where
  rename (src dst : List SymbolId) : (rb.rename src dst).Respects R
  replaceThis (cls : SymbolId) (target : Ty) : (rb.replaceThis cls target).Respects R

namespace KeptByMaps

variable {R : SymbolTable → SymbolTable → Prop} (hR : KeptByMaps R)
include hR

theorem mapped {t t' : SymbolTable} (step : t.Mapped t') : R t t' := by
  cases step with
  | enter none => exact hR.enter t none
  | copy s => exact hR.copy t s
  | write s same => exact hR.write t s same

variable (classes : ∀ s, (baseClasses s).Respects R)
include classes

/-- The relation holds of every operation on types, if it holds of the linearization of classes. -/
theorem stepping : Stepping (fun x => x.Respects R) fun _ _ => True where
  pure _ := hR.refl
  bind_run := .bind_run hR
  get := hR.refl
  exhausted := hR.refl
  step hg t := hR.mapped (hg t)
  baseClasses := classes
  fit _ := trivial
  renamedSymbol? s _ t := by
    unfold renamedSymbol?
    split
    · exact hR.refl t
    · split <;> exact hR.refl t

theorem subst (fuel : Nat) : (Rebinding.at fuel).Respects R :=
  have walk := rebinding_walks (hR.stepping classes).walk fuel
  ⟨fun _ dst ty => OneRun.holds (walk.rename trivial
    (Scope.all_syms dst) 0 ty (Nat.le_refl _) (Scope.all_ty ty)), fun cls target ty =>
    (walk.replaceThis cls (Scope.all_ty target) 0 ty (Nat.le_refl _) (Scope.all_ty ty)).holds⟩

theorem substTypes (fuel : Nat) (src : List SymbolId) (dst : List Ty) :
    TypeMap.Respects R (Conformance.substTypes fuel src dst) := fun ty =>
  (substTypes_walks (hR.stepping classes).walk fuel src (Scope.all_tys dst) 0 ty (Nat.le_refl _)
    (Scope.all_ty ty)).holds

end KeptByMaps

/-! ## Views of types declare no members

Substitutions, views and lookups enter symbols, copies of classes and members among them, but they
record no symbol as a member: every member of a class of the table that they leave was a member of
some class before. -/

/-- `d` is recorded as a member of some class. -/
def SymbolTable.Declares (t : SymbolTable) (d : SymbolId) : Prop := ∃ s, d ∈ (t.get s).decls

namespace SymbolTable

variable {t t' : SymbolTable} {d : SymbolId}

theorem declares_of_records (same : t'.records = t.records) (h : t'.Declares d) : t.Declares d := by
  obtain ⟨s, hd⟩ := h
  rw [get, same] at hd
  exact ⟨s, hd⟩

/-- A new record has no members, or those of a symbol of the table. -/
theorem declares_of_add {r : SymbolRecord} (hr : r.decls = #[] ∨ ∃ s, r.decls = (t.get s).decls)
    (h : (t.add r).Declares d) : t.Declares d := by
  obtain ⟨s, hd⟩ := h
  rcases t.get_add r s with old | new
  · rw [old] at hd
    exact ⟨s, hd⟩
  · rw [new] at hd
    rcases hr with none | ⟨s0, copied⟩
    · rw [none] at hd
      simp at hd
    · rw [copied] at hd
      exact ⟨s0, hd⟩

theorem declares_of_update {c : SymbolId} {f : SymbolRecord → SymbolRecord}
    (hf : ∀ r, (f r).decls = r.decls) (h : (t.update c f).Declares d) : t.Declares d := by
  obtain ⟨s, hd⟩ := h
  rcases t.get_update c f s with old | new
  · rw [old] at hd
    exact ⟨s, hd⟩
  · rw [new, hf] at hd
    exact ⟨s, hd⟩

end SymbolTable

open SymbolTable

/-- What is declared when the operation has ended was declared before. -/
def SymM.DeclaresNothing {α : Type} (x : SymM α) : Prop :=
    ∀ t d, (x.after t).Declares d → t.Declares d

namespace SymM.DeclaresNothing

variable {α : Type} {x : SymM α}

theorem of_run (hx : x.DeclaresNothing) {t t' : SymbolTable}
    {a : α} {d : SymbolId} (run : x t = .ok a t') (h : t'.Declares d) : t.Declares d := by
  refine hx t d ?_
  rw [SymM.after, run]
  exact h

end SymM.DeclaresNothing

open SymM

/-! ## Substitutions -/

/-- A map that declares no members. -/
def TypeMap.DeclaresNothing (f : TypeMap) : Prop := ∀ ty, (f ty).DeclaresNothing

structure Rebinding.DeclaresNothing (rb : Rebinding) : Prop where
  rename (src dst : List SymbolId) : (rb.rename src dst).DeclaresNothing
  replaceThis (cls : SymbolId) (target : Ty) : (rb.replaceThis cls target).DeclaresNothing

theorem keptByMaps_declares : KeptByMaps fun t t' => ∀ d, t'.Declares d → t.Declares d where
  refl _ _ h := h
  trans h h' d later := h d (h' d later)
  enter _ _ none _ := declares_of_add (.inl none)
  copy _ s _ := declares_of_add (.inr ⟨s, rfl⟩)
  write _ _ _ same _ := declares_of_update same

theorem baseClasses_declaresNothing (s : SymbolId) : (baseClasses s).DeclaresNothing := by
  intro t d h
  obtain ⟨cs, t', run, same⟩ := exists_linearize Limits.linearizationDepth [] s t
  rw [SymM.after, baseClasses, run] at h
  exact declares_of_records same h

theorem subst_declaresNothing (fuel : Nat) : (Rebinding.at fuel).DeclaresNothing :=
  have kept := keptByMaps_declares.subst baseClasses_declaresNothing fuel
  ⟨kept.rename, kept.replaceThis⟩

/-! ## Views -/

def View.DeclaresNothing (see : View) : Prop := ∀ ty pre owner, (see ty pre owner).DeclaresNothing

theorem asSeenFrom_declaresNothing (fuel : Nat) : View.DeclaresNothing (asSeenFrom fuel) :=
    fun ty pre owner =>
  (asSeenFrom_walks (keptByMaps_declares.stepping baseClasses_declaresNothing).walk
    fuel (Scope.all_ty ty) (Scope.all_ty pre) (Scope.all_sym owner)).holds

theorem baseClassesOf_declaresNothing (fuel : Nat)
    (ty : Ty) : (baseClassesOf fuel ty).DeclaresNothing :=
  (baseClassesOf_walks (keptByMaps_declares.stepping baseClasses_declaresNothing).walk
    (Scope.all_ty ty)).holds

end Conformance

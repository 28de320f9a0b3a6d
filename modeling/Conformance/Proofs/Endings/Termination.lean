import Conformance.Proofs.Endings.Chains
import Conformance.Proofs.Ranges.Tables

/-! # Type operations on cyclic declarations

The operations with a budget end however the declarations refer to each other. Stability, exclusion
of null, base classes and members are found where the chain of types they are asked of is finite,
and nowhere else: these operations notice a type that stands for itself, but no longer cycle. -/

namespace Conformance

open SymM SymbolTable

variable {α : Type} {t : SymbolTable}

/-- Every operation on a first-order type ends, four of them if their chains do. -/
theorem SymbolTable.FirstOrderDeclarations.type_operations_end {t : SymbolTable}
    (ht : t.FirstOrderDeclarations) {ty : Ty} (h : t.FirstOrder ty) :
    (Terminates t (normalize · ty) ∧ Terminates t (dealias · ty) ∧ Terminates t (widen · ty) ∧
      Terminates t (underlying · ty) ∧ Terminates t (typeSymbol · ty) ∧
        (∀ cls, Terminates t (baseType · ty cls)) ∧
      ∀ s, Terminates t fun _ => baseClasses s) ∧
    (Terminates t (isStable · ty) ↔ Acc t.StableNext ty) ∧
      (Terminates t (isNotNull · ty) ↔ Acc t.NullNext ty) ∧
    (Terminates t (baseClassesOf · ty) ↔ Acc t.ClassesNext ty) ∧
    ∀ name, Terminates t (findMember · ty name) ↔
      ∃ widened, Converges (widen · ty.bare) t widened t ∧ Acc t.ClassesNext widened := by
  have unchanged : ∀ {α : Type} {x : Nat → SymM α} {P : α → Prop}, Ends
    t x (fun a t' => t' = t ∧ P a) → Terminates t x := by
    intro α x P ends
    exact ends.imp fun _ _ same => congrArg _ same.1
  refine ⟨⟨unchanged (normalizeUpTo_ends ht _ h), unchanged (dealiasUpTo_ends ht _ h),
    unchanged (widenUpTo_ends ht _ h), unchanged (underlying_ends ht h), ?_, fun cls =>
    ?_, fun s => baseClasses_ends s t⟩, (isStable_walk ht).terminates_iff_acc (.proper h),
    (isNotNull_walk ht).terminates_iff_acc (.proper h),
    (baseClassesOf_walk ht).terminates_iff_acc h, findMember_terminates_iff ht h⟩
  · exact (typeSymbolUpTo_ends ht _ (.proper h)).imp fun _ _ same => congrArg _ same
  · exact (baseTypeUpTo_ends ht cls _ h rfl).imp fun _ _ found => found.1

/-! ## Checking a table -/

namespace SymbolTable

variable (t : SymbolTable)

instance (s : SymbolId) : Decidable (t.OwnedPlainly s) := inferInstanceAs (Decidable (_ → _))

instance (s : SymbolId) : Decidable (t.IsSimple s) := inferInstanceAs (Decidable (_ ∧ _))

/-- Types of a nesting below the given one that are first-order. -/
def isFirstOrder : Nat → Ty → Bool
  | 0, _ => false
  | k + 1, ty =>
    match ty with
    | .noType | .noPrefix | .error | .wildcard | .dangling _ | .var _ | .const _ => true
    | .this s => isFirstOrder k (t.typeRefOf s)
    | .single pre s => isFirstOrder k pre && decide
      (pre = .noPrefix ∨ t.OwnedPlainly s) && decide (t.IsSimple s)
    | .ref pre s args =>
      isFirstOrder k pre && decide (pre = .noPrefix ∨ t.OwnedPlainly s) && decide (t.IsSimple s) &&
        args.all (isFirstOrder k)
    | .annotated _ body | .boundedWildcard body | .nullary body | .notNull body =>
      isFirstOrder k body
    | .bounds lo hi => isFirstOrder k lo && isFirstOrder k hi
    | _ => false

variable {t}

theorem firstOrder_of_check {k : Nat} {ty : Ty} (h : t.isFirstOrder k ty = true) :
    t.FirstOrder ty := by
  induction k generalizing ty with
  | zero => cases h
  | succ k ih =>
    cases ty with
    | noType | noPrefix | error | wildcard | dangling | var | const => constructor
    | this | annotated | boundedWildcard | nullary | notNull =>
      constructor
      exact ih h
    | single pre s =>
      simp only [isFirstOrder, Bool.and_eq_true, decide_eq_true_eq] at h
      exact .single (ih h.1.1) h.1.2 h.2
    | ref pre s args =>
      simp only [isFirstOrder, Bool.and_eq_true, decide_eq_true_eq, List.all_eq_true] at h
      exact .ref (ih h.1.1.1) h.1.1.2 h.1.2 fun a mem => ih (h.2 a mem)
    | bounds lo hi =>
      simp only [isFirstOrder, Bool.and_eq_true] at h
      exact .bounds (ih h.1) (ih h.2)
    | _ => cases h

variable (t)

/-- The declarations of the symbols in the table are first-order, of a nesting below the given
one. -/
structure ChecksFirstOrder (k : Nat) : Prop where
  known : [Known.nothingType, Known.anyType, Known.javaLangRef Known.string,
    Known.scalaRef Known.unit, Known.nullType, Known.scalaRef Known.boolean,
    Known.scalaRef Known.char, Known.scalaRef Known.int,
    Known.scalaRef Known.long, Known.scalaRef Known.double].all (t.isFirstOrder k) = true
  nonempty : 0 < t.size
  declared : ∀ i ∈ List.range t.size, (t.IsSimple ⟨i⟩ → t.isFirstOrder k (t.info ⟨i⟩) = true) ∧
    (t.get ⟨i⟩).parents.all (t.isFirstOrder k) = true ∧
    ((t.tparams ⟨i⟩).map t.typeConstructor).all (t.isFirstOrder k) = true

instance (k : Nat) : Decidable (t.ChecksFirstOrder k) :=
  decidable_of_iff (_ ∧ _ ∧ _) ⟨fun h => ⟨h.1, h.2.1, h.2.2⟩, fun h =>
    ⟨h.known, h.nonempty, h.declared⟩⟩

variable {t}

theorem ChecksFirstOrder.firstOrderDeclarations {k : Nat}
    (h : t.ChecksFirstOrder k) : t.FirstOrderDeclarations := by
  have known : ∀ ty ∈ _, t.FirstOrder ty := fun ty mem =>
    firstOrder_of_check (List.all_eq_true.1 h.known ty mem)
  -- an unknown identifier reads the record of the absent symbol
  have listed : ∀ s : SymbolId, ∃ i ∈ List.range t.size, t.get s = t.get ⟨i⟩ := by
    intro s
    by_cases hs : s.val < t.size
    · exact ⟨s.val, List.mem_range.2 hs, rfl⟩
    · exact ⟨0, List.mem_range.2 h.nonempty, get_of_size_le (Nat.not_lt.1 hs)⟩
  refine ⟨fun s simple => ?_, fun s p mem => ?_, fun s p mem =>
    ?_, known _ (by simp), known _ (by simp), fun v => known _ ?_⟩
  · obtain ⟨i, mem, eq⟩ := listed s
    rw [SymbolTable.info, eq]
    refine firstOrder_of_check ((h.declared i mem).1 ?_)
    rwa [IsSimple, ← eq]
  · obtain ⟨i, inside, eq⟩ := listed s
    rw [eq] at mem
    exact firstOrder_of_check (List.all_eq_true.1 (h.declared i inside).2.1 p mem)
  · obtain ⟨i, inside, eq⟩ := listed s
    rw [tparams, eq] at mem
    exact firstOrder_of_check (List.all_eq_true.1 (h.declared i inside).2.2
      _ (List.mem_map_of_mem mem))
  · cases v <;> simp [Known.constantType, Known.constantClass, Known.nullType]

/-! ## Cyclic declarations -/

/-- Symbols entered after those that every table holds. -/
def later (i : Nat) : SymbolId := ⟨Known.count + i⟩

/-- Aliases `A = B`, `B = A`, abstract types `T <: U`, `U <: T`, a value `x : x.type`, classes `C
extends D`, `D extends C`, and aliases `E = G`, `F = E`, `G = F`. -/
def cyclic : SymbolTable :=
  let declare (kind : SymbolKind) (flags : Flags) (info : Ty) (parents : List Ty) : SymbolRecord :=
    { id := .none, name := "x", owner := Known.scalaClass, kind, flags, info, parents }
  let synonym (i : Nat) := declare .aliasType .empty (Known.scalaRef (later i)) []
  let bounded (i : Nat) :=
    declare .abstractType (.single .deferred) (.bounds Known.nothingType (Known.scalaRef (later i)))
      []
  let cls (i : Nat) := declare .plainClass .empty .noType [Known.scalaRef (later i)]
  [synonym 1, synonym 0, bounded 3, bounded 2, declare
    .value .empty (.single (.this Known.scalaClass) (later 4)) [],
    cls 6, cls 5, synonym 9, synonym 7, synonym 8].foldl add initial

theorem cyclic_firstOrder : cyclic.FirstOrderDeclarations :=
  ChecksFirstOrder.firstOrderDeclarations (k := 9) (by decide +kernel)

end SymbolTable

theorem SymM.Converges.eq_of_answer {x : Nat → SymM α} {t' : SymbolTable}
    {a b : α} (h : Converges x t a t') {n : Nat} (run : (x n).run' t = some b) : a = b := by
  obtain ⟨s, hx⟩ := exists_of_run' run
  exact (h.only n b s hx).1.symm

/-- On the alias `A = B`, `B = A` every operation ends. -/
theorem cyclic_operations_end :
    let t := SymbolTable.cyclic
    let ty := Known.scalaRef (later 0)
    t.FirstOrderDeclarations ∧ t.FirstOrder ty ∧ Terminates t (normalize · ty) ∧
    Terminates t (isStable · ty) ∧
      Terminates t (isNotNull · ty) ∧ Terminates t (baseClassesOf · ty) ∧
        Terminates t (findMember · ty "x") := by
  intro t ty
  have first : t.FirstOrder ty := firstOrder_of_check (k := 9) (by decide +kernel)
  have answers : (normalize 9 ty).run' t = some ty ∧ (typeSymbol 9 ty).run' t = some (later 0) ∧
      (widen 9 ty).run' t = some ty ∧ (t.get (later 0)).isAliasType = true ∧
      (t.get (later 0)).isAbstractType = false := by decide +kernel
  obtain ⟨normal, symbol, wide, isAlias, notAbstract⟩ := answers
  obtain ⟨⟨normalizes, _⟩, stable, notNull, classes, members⟩ :=
    cyclic_firstOrder.type_operations_end first
  have noStable : Acc t.StableNext (.ref (.this Known.scalaClass) (later 0) []) :=
    .intro _ fun ty' steps => by
    cases steps with
    | expansion _ _ expands other => exact absurd (expands.eq_of_answer normal) other
  have noNull : Acc t.NullNext (.ref (.this Known.scalaClass) (later 0) []) :=
    .intro _ fun ty' steps => by
    cases steps with
    | expansion _ _ expands other => exact absurd (expands.eq_of_answer normal) other
    | bound _ notAlias => exact absurd (isAlias.symm.trans notAlias) nofun
  have noClasses : Acc t.ClassesNext ty := .intro ty fun ty' steps => by
    cases steps with
    | bound symbol' abstract =>
      rw [symbol'.eq_of_answer symbol] at abstract
      exact absurd (abstract.symm.trans notAbstract) nofun
  obtain ⟨widened, widens, _⟩ := widen_converges cyclic_firstOrder first.bare
  rw [widens.eq_of_answer wide] at widens
  exact ⟨cyclic_firstOrder, first, normalizes, stable.2 noStable,
    notNull.2 noNull, classes.2 noClasses, (members "x").2 ⟨ty, widens, noClasses⟩⟩

/-! ## Cycles that go unnoticed -/

/-- A chain in a circle goes on for ever. -/
theorem not_acc_of_circle {next : Ty → Ty → Prop} {c : Nat → Ty}
    {l : List (Nat × Nat)} (steps : ∀ p ∈ l, next (c p.2) (c p.1))
    (closed : ∀ p ∈ l, ∃ q ∈ l, q.1 = p.2) {p : Nat × Nat} (mem : p ∈ l) : ¬ Acc next (c p.1) := by
  intro acc
  generalize eq : c p.1 = ty at acc
  induction acc generalizing p with
  | intro ty _ ih =>
    obtain ⟨q, mem', eq'⟩ := closed p mem
    exact ih (c p.2) (eq ▸ steps p mem) mem' (by rw [eq'])

/-- A walk along an endless chain takes all the fuel it is given. -/
theorem Walk.exhausted {next : Ty → Ty → Prop} {D : Ty → Prop}
    {f : Nat → Ty → SymM α} (w : Walk t next D f) {ty : Ty} (unfailing : ∀ n, Unfailing (f n ty))
    (h : D ty) (endless : ¬ Acc next ty) (n : Nat) : ∃ t', f n ty t = .error .exhausted t' := by
  cases run : f n ty t with
  | ok a t' => exact absurd (w.acc_of_run h run) endless
  | error e t' => exact ⟨t', by rw [unfailing n t e t' run]⟩

theorem SymM.Converges.of_answer {x : Nat → SymM α} {P : α → Prop} {a : α} {n : Nat}
    (h : ∃ a, Converges x t a t ∧ P a) (run : (x n).run' t = some a) : Converges x t a t := by
  obtain ⟨b, ends, _⟩ := h
  rwa [ends.eq_of_answer run] at ends

namespace SymbolTable

theorem later_ordinary (i : Nat) : later i ≠ Known.nothing ∧ later i ≠ Known.singleton := by
  simp only [later, Known.count, Known.nothing, Known.singleton, ne_eq, SymbolId.mk.injEq]
  omega

/-- The bounds `T <: U`, `U <: T` go in a circle. -/
theorem cyclic_bounds : ∀ p ∈ [(2, 3), (3, 2)], cyclic.NullNext (Known.scalaRef (later p.2))
    (Known.scalaRef (later p.1)) ∧ cyclic.ClassesNext (Known.scalaRef (later p.2))
    (Known.scalaRef (later p.1)) := by
  have facts : ∀ p ∈ [(2, 3), (3, 2)], cyclic.isFirstOrder 9 (Known.scalaRef (later p.1)) = true ∧
      (cyclic.get (later p.1)).isAliasType = false ∧ (cyclic.get (later p.1)).isAbstractType =
      true ∧ Known.scalaRef (later p.2) ≠ Known.scalaRef (later p.1) ∧
      (upperBound 9 (Known.scalaRef (later p.1))).run' cyclic = some (Known.scalaRef (later p.2)) ∧
      (widen 9 (Known.scalaRef (later p.1))).run' cyclic = some (Known.scalaRef (later p.1)) ∧
      (typeSymbol 9 (Known.scalaRef (later p.1))).run'
      cyclic = some (later p.1) := by decide +kernel
  intro p mem
  obtain ⟨first, notAlias, abstract, other, bounded, widens, symbol⟩ := facts p mem
  have first := firstOrder_of_check first
  have bounded := Converges.of_answer (upperBound_converges cyclic_firstOrder first) bounded
  have widens := Converges.of_answer (widen_converges cyclic_firstOrder first) widens
  obtain ⟨s, symbol'⟩ := typeSymbol_converges cyclic_firstOrder (.proper first)
  rw [symbol'.eq_of_answer symbol] at symbol'
  exact ⟨.bound (later_ordinary p.1).1 notAlias abstract bounded other,
    .bound symbol' abstract widens bounded other⟩

/-- So do the aliases `E = G`, `F = E`, `G = F`, as the budget is not a multiple of three. -/
theorem cyclic_aliases : ∀ p ∈ [(7, 8), (8, 9), (9, 7)],
    cyclic.StableNext (Known.scalaRef (later p.2)) (Known.scalaRef (later p.1)) := by
  have facts : ∀ p ∈ [(7, 8), (8, 9), (9, 7)], cyclic.isFirstOrder 9 (Known.scalaRef (later p.1)) =
      true ∧ (cyclic.get (later p.1)).isAliasType = true ∧ Known.scalaRef
      (later p.2) ≠ Known.scalaRef (later p.1) ∧ (normalize 9 (Known.scalaRef (later p.1))).run'
      cyclic = some (Known.scalaRef (later p.2)) := by decide +kernel
  intro p mem
  obtain ⟨first, isAlias, other, expands⟩ := facts p mem
  have expands :=
    Converges.of_answer (normalize_converges cyclic_firstOrder (firstOrder_of_check first)) expands
  exact .expansion (later_ordinary p.1) isAlias expands other

/-- The value `x` stands for itself. -/
theorem cyclic_path : cyclic.NullNext (.single (.this Known.scalaClass) (later 4))
    (.single (.this Known.scalaClass) (later 4)) := by
  have facts : cyclic.isFirstOrder 9 (.single (.this Known.scalaClass) (later 4)) = true ∧
      (cyclic.flags (later 4)).has .module = false ∧
      (underlying 9 (.single (.this Known.scalaClass) (later 4))).run' cyclic =
        some (.single (.this Known.scalaClass) (later 4)) := by decide +kernel
  obtain ⟨first, notModule, stands⟩ := facts
  exact .path notModule
    (.of_answer (underlying_converges cyclic_firstOrder (firstOrder_of_check first)) stands)

end SymbolTable

/-- No fuel is enough for the bounds `T <: U`, `U <: T`, for `x : x.type` and for `E = G`, `F = E`,
`G = F`. -/
theorem cyclic_operations_go_on :
    (∀ n, ∃ t', isNotNull n (Known.scalaRef (later 2)) cyclic = .error .exhausted t') ∧
    (∀ n, ∃ t', baseClassesOf n (Known.scalaRef (later 2)) cyclic = .error .exhausted t') ∧
    (∀ n, ∃ t', findMember n (Known.scalaRef (later 2)) "x" cyclic = .error .exhausted t') ∧
    (∀ n, ∃ t', isNotNull n (.single (.this Known.scalaClass) (later 4)) cyclic = .error .exhausted
    t') ∧ ∀ n, ∃ t', isStable n (Known.scalaRef (later 7)) cyclic = .error .exhausted t' := by
  have ht := cyclic_firstOrder
  have first : ∀ ty ∈ [Known.scalaRef (later 2), .single (.this Known.scalaClass) (later 4),
      Known.scalaRef (later 7)],
      cyclic.isFirstOrder 9 ty = true := by decide +kernel
  have bounded : cyclic.FirstOrder (Known.scalaRef (later 2)) :=
    firstOrder_of_check (first _ (by simp))
  have value : cyclic.FirstOrder (.single (.this Known.scalaClass) (later 4)) :=
    firstOrder_of_check (first _ (by simp))
  have synonym : cyclic.FirstOrder (Known.scalaRef (later 7)) :=
    firstOrder_of_check (first _ (by simp))
  have circle : ∀ p ∈ [(2, 3), (3, 2)], ∃ q ∈ [(2, 3), (3, 2)], q.1 = p.2 := by decide
  have nulls : ¬ Acc cyclic.NullNext (Known.scalaRef (later 2)) :=
    not_acc_of_circle (c := (Known.scalaRef <| later ·))
      (fun p mem => (cyclic_bounds p mem).1) circle List.mem_cons_self
  have classes : ¬ Acc cyclic.ClassesNext (Known.scalaRef (later 2)) :=
    not_acc_of_circle (c := (Known.scalaRef <| later ·))
      (fun p mem => (cyclic_bounds p mem).2) circle List.mem_cons_self
  have paths : ¬ Acc cyclic.NullNext (.single (.this Known.scalaClass) (later 4)) :=
    not_acc_of_circle (c := fun i => .single (.this Known.scalaClass) (later i))
      (l := [(4, 4)]) (fun p mem => by cases List.mem_singleton.1 mem; exact cyclic_path)
      (by decide) List.mem_cons_self
  have stable : ¬ Acc cyclic.StableNext (Known.scalaRef (later 7)) :=
    not_acc_of_circle (c := (Known.scalaRef <| later ·))
      cyclic_aliases (by decide) List.mem_cons_self
  refine ⟨(isNotNull_walk ht).exhausted (isNotNull_unfailing · _) (.proper bounded) nulls,
    (baseClassesOf_walk ht).exhausted (baseClassesOf_unfailing · _) bounded classes, fun n => ?_,
    (isNotNull_walk ht).exhausted (isNotNull_unfailing · _) (.proper value) paths,
    (isStable_walk ht).exhausted (isStable_unfailing · _) (.proper synonym) stable⟩
  cases run : findMember n (Known.scalaRef (later 2)) "x" cyclic with
  | ok ms t' =>
    obtain ⟨widened, widens, acc⟩ := acc_of_findMember_run ht bounded run
    have wide : (widen 9 (Known.scalaRef (later 2)).bare).run'
      cyclic = some (Known.scalaRef (later 2)) := by decide +kernel
    rw [widens.eq_of_answer wide] at acc
    exact absurd acc classes
  | error e t' => exact ⟨t', by rw [findMember_unfailing n _ _ cyclic e t' run]⟩

end Conformance

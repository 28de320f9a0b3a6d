import Conformance.Proofs.Expansion

/-! # Substitutions for what does not occur

A substitution that concerns no component of a type returns the type as it is and enters no symbol,
if following components, infos of bound symbols included, comes to an end. -/

namespace Conformance

open SymbolTable

/-- Following components from `ty` comes to an end. -/
def SymbolTable.IsFounded (t : SymbolTable) (ty : Ty) : Prop :=
    Acc (fun c ty => c ∈ t.children ty) ty

variable {t : SymbolTable} {ty : Ty}

/-- Enough fuel for each of finitely many is enough for all. -/
theorem exists_enough {α : Type} {P : α → Nat → Prop}
    {as : List α} (h : ∀ a ∈ as, ∃ need, ∀ fuel, need ≤ fuel → P a fuel) :
    ∃ need, ∀ fuel, need ≤ fuel → ∀ a ∈ as, P a fuel := by
  induction as with
  | nil => exact ⟨0, fun _ _ _ mem => nomatch mem⟩
  | cons a as ih =>
    obtain ⟨need, here⟩ := h a List.mem_cons_self
    obtain ⟨need', rest⟩ := ih fun b mem => h b (List.mem_cons_of_mem _ mem)
    refine ⟨need + need', fun fuel le => List.forall_mem_cons.2
      ⟨here fuel (by omega), rest fuel (by omega)⟩⟩

/-- A map that leaves each component as it is where it leaves the components of that one. -/
theorem map_of_founded (founded : t.IsFounded ty) {f : Nat → TypeMap}
    (absent : ∀ n, f (n + 1) .noType t = .ok .noType t)
    (step : ∀ c, t.Reaches ty c → ∀ n, (Rebinding.at n).mapOver (f n) c t = .ok c t →
    f (n + 1) c t = .ok c t) : ∃ need, ∀ fuel, need ≤ fuel → f fuel ty t = .ok ty t := by
  induction founded with
  | intro ty _ ih =>
    obtain ⟨need, enough⟩ := exists_enough fun c mem =>
      ih c mem fun c' reach => step c' (.child mem reach)
    refine ⟨need + 2, fun fuel le => ?_⟩
    obtain ⟨n, rfl⟩ : ∃ n, fuel = n + 2 := ⟨fuel - 2, by omega⟩
    have below := enough (n + 1) (by omega)
    refine step ty (.refl ty) (n + 1)
      (Rebinding.mapOver_fixed _ (fun c mem => below c (mem_children.2 (.inl mem))) fun b mem => ?_)
    obtain child | none := info_mem_children mem
    · exact below _ child
    · rw [none]
      exact absent n

/-- The symbol that a reference or path names. -/
def Ty.named? : Ty → Option SymbolId
  | .ref _ s _ | .single _ s | .this s => some s
  | _ => none

theorem mentionsSymbol_eq_false {s : SymbolId} : t.mentionsSymbol ty s = false ↔
    ∀ c, t.Reaches ty c → c.named? ≠ some s := by
  rw [mentionsSymbol, existsType_eq_false]
  refine forall₂_congr fun c _ => ?_
  cases c <;> simp [Ty.named?]

/-- Renaming symbols that are not named, replacing parameters that are not referred to, and
replacing a path that does not occur: each gives the type itself and leaves the table as it is. -/
theorem irrelevant_substitutions_are_free (founded : t.IsFounded ty) :
    (∀ src dst, (∀ s ∈ src, t.mentionsSymbol ty s = false) → ∃ need, ∀ fuel, need ≤ fuel →
      substSym fuel src dst ty t = .ok ty t) ∧
    (∀ src dst, (∀ s ∈ src, t.existsType ty (fun | .ref .noPrefix s' _ => s' == s | _ => false) =
      false) → ∃ need, ∀ fuel, need ≤ fuel → substTypes fuel src dst ty t = .ok ty t) ∧
    ∀ cls target, t.existsType ty (· == .this cls) = false → ∃ need, ∀ fuel, need ≤ fuel →
      substThis fuel cls target ty t = .ok ty t := by
  refine ⟨fun src dst unnamed => ?_, fun src dst unnamed => ?_, fun cls target unnamed => ?_⟩
  · refine map_of_founded founded (fun n => ?_) fun c reach n mapped => ?_
    · unfold substSym
      exact congrFun (if_pos (by simp [Ty.isSentinel])) t
    have kept : ∀ s, c.named? = some s → renamedSymbol? src dst s = pure none := fun s names =>
      renamedSymbol?_of_notMem (fun mem => mentionsSymbol_eq_false.1 (unnamed s mem) c reach names)
        dst
    unfold substSym
    split
    · rfl
    · cases c with
      | this s | single pre s | ref pre s args =>
        dsimp only
        rw [kept s rfl]
        exact mapped
      | _ => exact mapped
  · refine map_of_founded founded (fun n => ?_) fun c reach n mapped => ?_
    · unfold substTypes
      exact congrFun (if_pos (by simp [Ty.isSentinel])) t
    unfold substTypes
    split
    · rfl
    · split
      · next s args _ =>
        have none : (src.zip dst).lookup s = none := by
          refine Option.eq_none_iff_forall_ne_some.2 fun a found => ?_
          have := existsType_eq_false.1 (unnamed s (List.of_mem_zip (mem_of_lookup found)).1)
            _ reach
          simp at this
        rw [none]
        exact mapped
      · exact mapped
  · refine map_of_founded founded (fun n => ?_) fun c reach n mapped => ?_
    · unfold substThis
      exact congrFun (if_pos (by simp [Ty.isSentinel])) t
    unfold substThis
    split
    · rfl
    · rw [existsType_eq_false.1 unnamed c reach]
      exact mapped

/-- Each type stands before its components. -/
def SymbolTable.areLayered (t : SymbolTable) : List Ty → Bool
  | [] => true
  | ty :: tys => (t.children ty).all tys.contains && t.areLayered tys

theorem SymbolTable.isFounded_of_areLayered {tys : List Ty} (h : t.areLayered tys = true) :
    ∀ ty ∈ tys, t.IsFounded ty ∧ ∀ c, t.Reaches ty c → c ∈ tys := by
  induction tys with
  | nil => nofun
  | cons ty tys ih =>
    rw [areLayered, Bool.and_eq_true, List.all_eq_true] at h
    have rest := ih h.2
    have inside : ∀ c ∈ t.children ty, c ∈ tys := fun c mem => List.contains_iff_mem.1 (h.1 c mem)
    refine List.forall_mem_cons.2 ⟨⟨.intro _ fun c mem =>
      (rest c (inside c mem)).1, fun c reach => ?_⟩, fun ty' mem => ?_⟩
    · cases reach with
      | refl => exact List.mem_cons_self
      | child mem reach => exact List.mem_cons_of_mem _ ((rest _ (inside _ mem)).2 c reach)
      | inst hinst => cases hinst
    · exact (rest ty' mem).imp_right fun h c reach => List.mem_cons_of_mem _ (h c reach)

theorem quantified_substitutions_are_free :
    let ty : Ty := .exist [Known.anyRef] (.ref .noPrefix Known.anyRef [])
    SymbolTable.initial.IsFounded ty ∧
      ∃ need, ∀ fuel, need ≤ fuel → substSym fuel [Known.anyVal]
        [Known.any] ty .initial = .ok ty .initial := by
  intro ty
  have layered : SymbolTable.initial.areLayered [ty, Known.objectType, .this Known.javaLangClass,
      .ref .noPrefix Known.anyRef [], .noPrefix] = true := by decide +kernel
  obtain ⟨founded, within⟩ := isFounded_of_areLayered layered ty List.mem_cons_self
  refine ⟨founded, (irrelevant_substitutions_are_free founded).1 _ _ fun s mem => ?_⟩
  refine mentionsSymbol_eq_false.2 fun c reach => ?_
  have unnamed : ∀ c ∈ [ty, Known.objectType, .this Known.javaLangClass,
      .ref .noPrefix Known.anyRef [], .noPrefix],
      c.named? ≠ some Known.anyVal := by decide +kernel
  exact List.mem_singleton.1 mem ▸ unnamed c (within c reach)

end Conformance

import Conformance.Proofs.Replacement

/-! # Substitutions one after another

In types that bind nothing, substituting for some parameters and then for others is substituting for
all of them at once, the first replacements having been substituted in. No replacement is
`noPrefix`: a prefix that goes away would make a selected member a parameter. No annotation is
empty: it would go away with the first change of its body. -/

namespace Conformance

namespace Ty

/-- No annotation is empty, as `annotate` has it. -/
def isTrim : Ty → Bool := every fun
  | .annotated as _ => !as.isEmpty
  | _ => true

variable {ps qs : List SymbolId} {as bs : List Ty} {ty : Ty}

theorem isTrim_part {c : Ty} (trim : ty.isTrim = true) (mem : c ∈ ty.parts) : c.isTrim = true :=
    (every_iff.1 trim).2 c mem

theorem annotations_of_isTrim {annots : List SymbolId}
    (trim : (annotated annots ty).isTrim = true) :
    annots.isEmpty = false := by simpa using (every_iff.1 trim).1

theorem isDirect_left (ty : Ty) (h : ty.isDirect (ps ++ qs) = true) : ty.isDirect ps = true := by
  have parts := fun c (mem : c ∈ ty.parts) => isDirect_left c (isDirect_part h mem)
  cases ty <;> simp_all [isDirect, Ty.parts]
  exact h.1.1.imp_right And.left
termination_by sizeOf ty
decreasing_by exact sizeOf_lt_of_part mem

/-- Only `noPrefix` is replaced by `noPrefix`. -/
theorem replace_ne_noPrefix (present : ∀ a ∈ as, a ≠ .noPrefix)
    (trim : ty.isTrim = true) (ne : ty ≠ .noPrefix) : ty.replace ps as ≠ .noPrefix := by
  cases ty with
  | ref pre s args =>
    rw [replace]
    cases found : paramType? ps as pre s args with
    | none => simp
    | some a =>
      unfold paramType? at found
      split at found
      · exact present a (List.of_mem_zip (mem_of_lookup found)).2
      · cases found
  | annotated as body =>
    rw [replace, annotate]
    split
    · simp
    · rw [annotations_of_isTrim trim]
      simp
  | noPrefix => exact absurd rfl ne
  | _ => simp [replace]

theorem lookup_zip_map (f : Ty → Ty) (s : SymbolId) :
    (ps.zip (as.map f)).lookup s = ((ps.zip as).lookup s).map f := by
  induction ps generalizing as with
  | nil => rfl
  | cons p ps ih =>
    cases as with
    | nil => rfl
    | cons a as =>
      rw [List.map_cons, List.zip_cons_cons, List.zip_cons_cons,
        List.lookup_cons, List.lookup_cons, ih]
      split <;> rfl

/-- The parameters one after another, as one list of parameters. -/
theorem paramType?_append (len : ps.length = as.length) (pre : Ty) (s : SymbolId) (args : List Ty) :
    paramType? (ps ++ qs) (as.map (replace qs bs) ++ bs) pre s args =
      ((paramType? ps as pre s args).map (replace qs bs)).or (paramType? qs bs pre s args) := by
  unfold paramType?
  split
  · rw [List.zip_append (by simpa using len), List.lookup_append, lookup_zip_map]
  · rfl

/-- What may stand for `ps` where `qs` are replaced afterwards. -/
structure Replacements (ps qs : List SymbolId) (as : List Ty) : Prop where
  len : ps.length = as.length
  present : ∀ a ∈ as, a ≠ .noPrefix
  direct : ∀ a ∈ as, a.isDirect qs = true

theorem replace_replace (h : Replacements ps qs as) (ty : Ty) (hd : ty.isDirect (ps ++ qs) = true)
    (ht : ty.isTrim = true) : (ty.replace ps as).isDirect qs = true ∧
      (ty.replace ps as).replace qs bs = ty.replace (ps ++ qs) (as.map (replace qs bs) ++ bs) := by
  have parts := fun c (mem : c ∈ ty.parts) => replace_replace h c (isDirect_part hd mem)
    (isTrim_part ht mem)
  cases ty with
  | ref pre s args =>
    rw [isDirect, Bool.and_eq_true, Bool.and_eq_true] at hd
    obtain ⟨hpre, eqpre⟩ := parts pre List.mem_cons_self
    have hargs : areDirect qs (replaceAll ps as args) = true := by
      simpa using fun a mem => (parts a (List.mem_cons_of_mem _ mem)).1
    have eqargs : replaceAll qs bs (replaceAll ps as args) = replaceAll (ps ++ qs)
      (as.map (replace qs bs) ++ bs) args := by
      simpa using fun a mem => (parts a (List.mem_cons_of_mem _ mem)).2
    rw [replace.eq_def ps, replace.eq_def (ps ++ qs)]
    dsimp only
    rw [paramType?_append h.len]
    cases found : paramType? ps as pre s args with
    | some a =>
      unfold paramType? at found
      split at found
      · exact ⟨h.direct a (List.of_mem_zip (mem_of_lookup found)).2, rfl⟩
      · cases found
    | none =>
      -- a prefix stays a prefix, so the reference is as direct as it was
      have same : pre.replace ps as = .noPrefix ↔ pre = .noPrefix :=
        ⟨not_imp_not.1 (replace_ne_noPrefix h.present (isTrim_part ht List.mem_cons_self)),
          fun eq => by simp only [eq, replace]⟩
      have none : (replaceAll ps as args).isEmpty = args.isEmpty := by simp
      have stays : paramType? qs bs (pre.replace ps as)
        s (replaceAll ps as args) = paramType? qs bs pre s args := by
        by_cases hp : pre = .noPrefix
        · rw [same.2 hp, hp]
          cases args <;> simp [paramType?]
        · rw [paramType?.eq_def, paramType?.eq_def]
          split <;> split <;> simp_all
      simp only [Option.getD_none, Option.map_none,
        Option.none_or, isDirect, replace, stays, eqpre, eqargs, hpre, hargs, none]
      by_cases hp : pre = .noPrefix
      · have plain := hd.1.1
        simp only [hp, bne_self_eq_false, Bool.false_or,
          List.contains_append, Bool.not_or] at plain ⊢
        cases args <;> simp_all
      · simp_all
  | annotated annots body =>
    obtain ⟨hbody, eq⟩ := parts body List.mem_cons_self
    have whole : ∀ {ps' as'} {b : Ty}, (Ty.annotated annots b).replace
      ps' as' = .annotated annots (b.replace ps' as') := by
      intro ps' as' b
      rw [replace, annotate, annotations_of_isTrim ht]
      exact ite_eq_right_iff.2 fun eq => by rw [eq]; rfl
    rw [whole, whole, whole, eq, isDirect]
    exact ⟨hbody, rfl⟩
  | _ => simp_all [replace, isDirect, Ty.parts]
termination_by sizeOf ty
decreasing_by exact sizeOf_lt_of_part mem

end Ty

/-- Substituting for `ps` and then for `qs` is substituting for both at once, with `qs` replaced in
what stands for `ps`. No symbol is entered. -/
theorem substTypes_substTypes {ps qs : List SymbolId} {as bs : List Ty} {ty : Ty}
    (len : ps.length = as.length) (direct : ty.isDirect (ps ++ qs) = true) (trim : ty.isTrim = true)
    (directs : ∀ a ∈ as, a.isDirect qs = true) (present : ∀ a ∈ as, a ≠ .noPrefix) : ∃ as' ty' need,
    ∀ fuel, need ≤ fuel → ∀ t : SymbolTable, as.mapM (substTypes fuel qs bs) t = .ok as' t ∧
      (do substTypes fuel qs bs (← substTypes fuel ps as ty) : SymM Ty) t = .ok ty' t ∧
      substTypes fuel (ps ++ qs) (as' ++ bs) ty t = .ok ty' t := by
  obtain ⟨again, same⟩ : _ ∧ (ty.replace ps as).replace qs bs = _ :=
    Ty.replace_replace ⟨len, present, directs⟩ ty direct trim
  have first : ty.isDirect ps = true := Ty.isDirect_left ty direct
  refine ⟨as.map (Ty.replace qs bs), (ty.replace ps as).replace qs bs,
    sizeOf ty + sizeOf (ty.replace ps as) + sizeOf as + 1, fun fuel enough t => ⟨?_, ?_, ?_⟩⟩
  · refine mapM_fixed fun a mem => substTypes_replace (directs a mem) ?_ t
    have := List.sizeOf_lt_of_mem mem
    omega
  · rw [CheckM.bind_ok (substTypes_replace first (by omega) t)]
    exact substTypes_replace again (by omega) t
  · rw [same]
    exact substTypes_replace direct (by omega) t

theorem substTypes_in_turn : ∃ as' ty' need, ∀ fuel, need ≤ fuel → ∀ t : SymbolTable,
    [Ty.ref .noPrefix ⟨27⟩ []].mapM (substTypes fuel [⟨27⟩] [Known.anyType]) t = .ok as' t ∧
      (do substTypes fuel [⟨27⟩] [Known.anyType] (← substTypes fuel [⟨26⟩] [.ref .noPrefix ⟨27⟩ []]
        (.ref (.this Known.scalaClass) ⟨28⟩ [.ref .noPrefix ⟨26⟩ [], .ref .noPrefix ⟨27⟩ []])) :
        SymM Ty) t = .ok ty' t ∧
      substTypes fuel ([⟨26⟩] ++ [⟨27⟩]) (as' ++ [Known.anyType]) (.ref (.this Known.scalaClass)
        ⟨28⟩ [.ref .noPrefix ⟨26⟩ [], .ref .noPrefix ⟨27⟩ []]) t = .ok ty' t :=
  substTypes_substTypes rfl (by decide) (by decide) (by decide) (by decide)

/-- In turn and at once, with so much fuel, the substitutions give the same type. -/
def Composes (fuel : Nat) (t : SymbolTable) (ps qs : List SymbolId)
    (as bs : List Ty) (ty : Ty) : Prop :=
  ∃ as' ty', as.mapM (substTypes fuel qs bs) t = .ok as' t ∧
    (do substTypes fuel qs bs (← substTypes fuel ps as ty) : SymM Ty) t = .ok ty' t ∧
    substTypes fuel (ps ++ qs) (as' ++ bs) ty t = .ok ty' t

/-- A prefix that is replaced by `noPrefix` leaves a parameter to the next substitution. An empty
annotation goes with the first change of its body, also if the next one undoes the change. -/
theorem vanishing_parts_do_not_compose : ¬ Composes 8 .initial [⟨26⟩]
    [⟨27⟩] [.noPrefix] [Known.anyType] (.ref (.ref .noPrefix ⟨26⟩ []) ⟨27⟩ []) ∧
      ¬ Composes 8 .initial [⟨26⟩] [⟨27⟩] [.ref .noPrefix ⟨27⟩ []] [.ref .noPrefix ⟨26⟩ []]
        (.annotated [] (.ref .noPrefix ⟨26⟩ [])) := by
  generalize SymbolTable.initial = t
  constructor
  all_goals
    rintro ⟨as', ty', replaced, inTurn, atOnce⟩
    cases replaced
    cases inTurn
    cases atOnce

end Conformance

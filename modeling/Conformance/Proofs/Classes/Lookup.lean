import Conformance.Proofs.Attains
import Conformance.Proofs.Classes.Instantiation

/-! # What the operations on a plain table give

Substitution is instantiation, a linearization lists the classes that a class derives from, and a
base type is reached through declared parents. The operations change a table only in what it
remembers. -/

namespace Conformance

variable {active : List SymbolId} {args : List Ty}
  {fuel n : Nat} {c d owner pkg : SymbolId} {p : Ty}

open SymbolTable

variable {ok : Prop}

namespace SymM

/-- From any table with right linearizations for `t`, `x` leads to such a table again, with a result
of which `P` holds. It fails only if `ok` does not hold. -/
abbrev Yields (t : SymbolTable) (ok : Prop) {α : Type} (x : SymM α) (P : α → Prop) : Prop :=
    Attains t.Remembers ok x P

end SymM

namespace SymbolTable

variable {t t' : SymbolTable}

theorem Remembers.get_eq (h : t.Remembers t') (s : SymbolId) : t'.get s = t.get s :=
    get_congr h.records s

/-- The invariant keeps the declarations of `t`. -/
def Kept (t : SymbolTable) (I : SymbolTable → Prop) : Prop := ∀ {t'}, I t' → ∀ s, t'.get s = t.get s

theorem Remembers.kind_eq (h : t.Remembers t') (s : SymbolId) : t'.kind s = t.kind s := by
  rw [kind, h.get_eq, kind]

theorem Remembers.parentClass_eq (h : t.Remembers t') : t'.parentClass = t.parentClass :=
    parentClass_of_records h.records

theorem Remembers.remember {cs : List SymbolId} (h : t.Remembers t')
    (hcs : ∀ d, d ∈ cs ↔ t.Derives c d) : t.Remembers (t'.rememberLinearization c cs) := by
  refine ⟨h.records, fun c' cs' hc' found => ?_⟩
  by_cases eq : c' = c
  · subst eq
    simp only [linearization?, rememberLinearization,
      List.lookup_cons_self, Option.some.injEq] at found
    exact found ▸ hcs
  · have miss : (c' == c) = false := by simpa using eq
    simp only [linearization?, rememberLinearization, List.lookup_cons, miss] at found
    exact h.linearized c' cs' hc' found

theorem class_of_kind (h : t.kind c = .plainClass ∨ t.kind c = .moduleClass) :
    (t.get c).isClass = true ∧ (t.get c).isAliasType = false ∧
    (t.get c).isAbstractType = false ∧ (t.get c).isRefinementClass = false := by
  rw [SymbolRecord.isAbstractType, SymbolRecord.isClass,
    SymbolRecord.isAliasType, SymbolRecord.isRefinementClass]
  rcases h with kind | kind <;> rw [show (t.get c).kind = _ from kind] <;> simp [SymbolKind.isClass]

theorem IsPlainClass.isClass (hc : t.IsPlainClass c) : (t.get c).isClass = true :=
    (class_of_kind (.inl hc.kind)).1

theorem IsPlainClass.not_alias (hc : t.IsPlainClass c) : (t.get c).isAliasType = false :=
    (class_of_kind (.inl hc.kind)).2.1

theorem Plain.anyRef_isAliasType (ht : t.Plain) : (t.get Known.anyRef).isAliasType = true := by
  have kind : (t.get Known.anyRef).kind = .aliasType := ht.anyRef_kind
  rw [SymbolRecord.isAliasType, kind]
  rfl

theorem Plain.anyRef_isClass (ht : t.Plain) : (t.get Known.anyRef).isClass = false := by
  have kind : (t.get Known.anyRef).kind = .aliasType := ht.anyRef_kind
  rw [SymbolRecord.isClass, kind]
  rfl

theorem Plain.parentClass_anyRef (ht : t.Plain) (pre : Ty) (args : List Ty) :
    t.parentClass (.ref pre Known.anyRef args) = Known.object := by
  show t.parentClassUpTo (126 + 1 + 1) _ = _
  simp [parentClassUpTo, ht.anyRef_isAliasType, ht.anyRef_isClass, ht.anyRef_info, Known.objectType,
    Known.javaLangRef, ht.object.isClass]

theorem IsPlainClass.parentClass (hc : t.IsPlainClass c) (pre : Ty) (args : List Ty) :
    t.parentClass (.ref pre c args) = c := by
  show t.parentClassUpTo (127 + 1) _ = _
  simp [parentClassUpTo, hc.isClass]

/-- Linearization has a level for each class. -/
theorem Plain.levels (ht : t.Plain) : t.Within Limits.linearizationDepth c :=
  fun cs h => Nat.lt_of_lt_of_le (ht.within c cs h) (by decide)

/-- A declared parent and the class behind it. -/
theorem Plain.parentClass_counted (ht : t.Plain) (hc : t.IsPlainClass c)
    (hp : p ∈ (t.get c).parents) : ∃ pkg args, p.counted = .ref (.this pkg)
    (t.parentClass p) args := by
  obtain ⟨pkg, d, args, rfl, ⟨-, rfl, rfl⟩ | term⟩ := ht.parents c hc p hp
  · rw [ht.parentClass_anyRef]
    exact ⟨_, _, rfl⟩
  · rw [term.isPlainClass.parentClass, ht.counted_of_term term]
    exact ⟨_, _, rfl⟩

theorem Plain.parentStep_iff (ht : t.Plain) (hc : t.IsPlainClass c) :
    t.ParentStep c d ↔ d ∈ (t.get c).parents.map t.parentClass := by
  constructor
  · rintro ⟨-, pre, args, mem⟩
    obtain ⟨p, hp, eq⟩ := List.mem_map.1 mem
    obtain ⟨pkg, args', eq'⟩ := ht.parentClass_counted hc hp
    rw [eq] at eq'
    cases eq'
    exact List.mem_map_of_mem hp
  · intro mem
    obtain ⟨p, hp, rfl⟩ := List.mem_map.1 mem
    obtain ⟨pkg, args, eq⟩ := ht.parentClass_counted hc hp
    exact ⟨hc, _, _, List.mem_map.2 ⟨p, hp, eq⟩⟩

end SymbolTable

namespace SymM

variable {t : SymbolTable}

theorem record_yields (s : SymbolId) : Yields t ok (record s) (· = t.get s) :=
  .bind .get fun _ ht' => .pure (ht'.get_eq s)

/-! ## Linearization -/

/-- The classes of a linearization of `c`, in any order. -/
def Linearizes (t : SymbolTable) (c : SymbolId) (cs : List SymbolId) : Prop :=
    ∀ d, d ∈ cs ↔ t.Derives c d

theorem linearize_yields (ht : t.Plain)
    (hc : t.IsPlainClass c) (within : t.Within n c) (fresh : ∀ a ∈ active, ¬ t.Derives c a) :
    Yields t True (linearize n active c) (Linearizes t c) := by
  refine linearize_attains (V := fun n active c =>
    t.IsPlainClass c ∧ t.Within n c ∧ ∀ a ∈ active, ¬ t.Derives c a) (R := Linearizes t)
    (fun ht' valid found => ht'.linearized _ _ valid.1 found) ?_ ?_ ⟨hc, within, fresh⟩
  · intro t' n active c ht' ⟨hc, within, fresh⟩ _ stop
    obtain rfl | mem := stop (by rw [ht'.get_eq, hc.isClass])
    · exact absurd within (t.not_within_zero c)
    · exact absurd .refl (fresh c mem)
  · intro t' n active c ht' ⟨hc, within, fresh⟩ _ _ _
    rw [ht'.parentClass_eq, ht'.get_eq]
    have step : ∀ d ∈ (t.get c).parents.map t.parentClass, t.ParentStep c d :=
      fun d => (ht.parentStep_iff hc).2
    refine ⟨fun d hd _ => ⟨ht.step_plain (step d hd), within.step (step d hd), fun a ha => ?_⟩,
      fun css hcss => ?_⟩
    · obtain rfl | ha := List.mem_cons.1 ha
      · exact ht.not_derives (step d hd)
      · exact fun h => fresh a ha (.head (step d hd) h)
    · rw [List.filter_eq_self.2 fun d hd => (ht.step_plain (step d hd)).present] at hcss
      have classes : Linearizes t c (headed c (css.foldl mixIn [])) := by
        intro d
        have below : d ∈ css.foldl mixIn [] ↔ ∃ m, t.ParentStep c m ∧ t.Derives m d := by
          rw [mem_mixIns (hcss.imp fun _ _ h => h d)]
          simp [ht.parentStep_iff hc]
        rw [derives_iff, ← below, headed]
        by_cases eq : d = c
        · simp [eq]
        · split <;> simp [eq, Ne.symm eq]
      exact ⟨classes, fun t'' ht'' => ht''.remember classes⟩

theorem isNonBottomSubClass_yields (ht : t.Plain) (hc : t.IsPlainClass c) (d : SymbolId) :
    Yields t True (isNonBottomSubClass c d) (· = true ↔ t.Derives c d) := by
  unfold isNonBottomSubClass
  by_cases eq : c = d
  · subst eq
    simp only [beq_self_eq_true, if_true]
    exact .pure (iff_of_true rfl .refl)
  · simp only [beq_iff_eq, eq, if_false]
    refine (linearize_yields ht hc ht.levels (by simp)).bind fun cs hcs => .pure ?_
    rw [List.contains_iff_mem, hcs]

theorem containsNull_iff_yields (ht : t.Plain) (hc : t.IsPlainClass c) :
    Yields t True (containsNull c) (· = true ↔ c ≠ Known.nothing ∧ ¬ t.Derives c Known.anyVal) := by
  unfold containsNull
  refine .bind .get fun t1 ht1 => ?_
  rw [ht1.kind_eq, hc.kind]
  by_cases bottom : c = Known.nothing
  · simp only [bottom, beq_self_eq_true, Bool.or_true, if_true]
    exact .pure (by simp)
  · simp only [SymbolKind.isClass, Bool.not_true, Bool.false_or, beq_iff_eq, bottom, if_false]
    refine (isNonBottomSubClass_yields ht hc _).bind fun value hvalue => ?_
    cases value with
    | true => exact .pure (by simp [← hvalue])
    | false =>
      simp only [Bool.false_eq_true, if_false]
      refine (isNonBottomSubClass_yields ht hc _).bind fun notNull hnotNull => .pure ?_
      have : notNull = false := by
        rw [← Bool.not_eq_true, hnotNull]
        exact fun h => (ht.derives_plain hc h).not_notNull rfl
      simp [this, bottom, ← hvalue]

/-- Instances may be null unless the class is empty or a value class. -/
theorem admitsNull_iff (ht : t.Plain)
    (hc : t.IsPlainClass c) : t.AdmitsNull c ↔ c ≠ Known.nothing ∧ ¬ t.Derives c Known.anyVal := by
  have run := containsNull_iff_yields ht hc t ht.remembers
  unfold AdmitsNull
  generalize containsNull c t = r at run ⊢
  cases r with
  | ok b t' =>
    refine Iff.trans ?_ run.2
    simp
  | error e t' => exact absurd trivial run

theorem containsNull_yields (ht : t.Plain) (hc : t.IsPlainClass c) :
    Yields t True (containsNull c) (· = true ↔ t.AdmitsNull c) :=
  (containsNull_iff_yields ht hc).imp fun _ h => h.trans (admitsNull_iff ht hc).symm

/-! ## Substitution -/

theorem substTypes_this {I : SymbolTable → Prop} (fuel : Nat) (ps : List SymbolId) (args : List Ty)
    (s : SymbolId) : Attains I (0 < fuel) (substTypes fuel ps args (.this s)) (· = .this s) := by
  cases fuel with
  | zero => exact .fail (by simp)
  | succ fuel =>
    unfold substTypes
    split
    · exact .pure rfl
    · exact .pure rfl

theorem substTypes_term {I : SymbolTable → Prop} {ps : List SymbolId}
    {g : Ty} (h : g.IsTerm ps) (arity : args.length = ps.length) (fuel : Nat) :
    Attains I (sizeOf g < fuel) (substTypes fuel ps args g) (· = g.inst ps args) := by
  induction fuel generalizing g with
  | zero => exact .fail (by simp)
  | succ fuel ih =>
    unfold substTypes
    cases h with
    | param mem =>
      obtain ⟨a, ha, -⟩ := exists_arg mem arity
      have nonempty : ps.isEmpty = false := by cases ps with
        | nil => cases mem
        | cons => rfl
      simp only [nonempty, Ty.isSentinel, Bool.or_false,
        Bool.false_eq_true, if_false, Ty.lookup_zip ha mem, List.isEmpty_nil, if_true]
      exact .pure (Ty.inst_param ha mem).symm
    | @app pkg c as terms =>
      cases ps with
      | nil => exact .pure (Ty.IsTerm.inst_eq (.app terms)).symm
      | cons p ps =>
        simp only [List.isEmpty_cons, Ty.isSentinel, Bool.or_false, Bool.false_eq_true, if_false]
        unfold Rebinding.mapOver
        refine .bind ((substTypes_this fuel _ args pkg).of_ok fun lt => ?_) fun pre hpre => ?_
        · simp only [Ty.ref.sizeOf_spec] at lt
          omega
        · refine .bind (.mapM_eq fun a ha => (ih (terms a ha)).of_ok fun lt => ?_) fun as' has' =>
            .pure ?_
          · have := List.sizeOf_lt_of_mem ha
            simp only [Ty.ref.sizeOf_spec] at lt
            omega
          · rw [Ty.inst_app, hpre, has']
            split
            · next eq => rw [eq.2]
            · rfl

/-! ## Base types -/

/-- A symbol other than an alias, applied to all its arguments, is in normal form. -/
theorem normalizeUpTo_applied {pre : Ty} (arity : args.length = (t.tparams c).length)
    (notAlias : (t.get c).isAliasType = false) (n : Nat) :
    Yields t ok (normalizeUpTo fuel (n + 1) (.ref pre c args)) (· = .ref pre c args) := by
  unfold normalizeUpTo
  refine (record_yields c).bind fun r hr => ?_
  have complete : (!r.tparams.isEmpty && args.isEmpty) = false := by
    have arity : args.length = r.tparams.length := hr ▸ arity
    cases args with
    | nil => simp [List.eq_nil_of_length_eq_zero arity.symm]
    | cons => simp
  rw [complete, hr, notAlias]
  exact .pure rfl

/-- Enough fuel for the declared parents. -/
structure Fueled (t : SymbolTable) (fuel : Nat) : Prop where
  pos : 0 < fuel
  parents : ∀ c, t.IsPlainClass c → ∀ p ∈ (t.get c).parents, sizeOf p < fuel

/-- The size of a table bounds the size of what its symbols are declared with. -/
theorem sizeOf_get_lt (t : SymbolTable) (c : SymbolId) :
    sizeOf (t.get c) < sizeOf (SymbolRecord.absent :: t.records.toList) := by
  refine List.sizeOf_lt_of_mem ?_
  simp only [SymbolTable.get, Array.getD_eq_getD_getElem?, List.mem_cons]
  cases h : t.records[c.val]? with
  | some r => exact .inr (by simpa using Array.mem_of_getElem? h)
  | none =>
    cases h0 : t.records[0]? with
    | some r => exact .inr (by simpa using Array.mem_of_getElem? h0)
    | none => exact .inl rfl

theorem sizeOf_parent_lt (t : SymbolTable) (hp : p ∈ (t.get c).parents) :
    sizeOf p < sizeOf (SymbolRecord.absent :: t.records.toList) := by
  have record := sizeOf_get_lt t c
  have parents := List.sizeOf_lt_of_mem hp
  cases h : t.get c
  rw [h] at record parents
  simp only [SymbolRecord.mk.sizeOf_spec] at record parents
  omega

theorem exists_fueled (t : SymbolTable) : ∃ bound, ∀ fuel, bound ≤ fuel → Fueled t fuel := by
  refine ⟨sizeOf (SymbolRecord.absent :: t.records.toList), fun fuel enough =>
    ⟨?_, fun c _ p hp => ?_⟩⟩
  · simp only [List.cons.sizeOf_spec] at enough
    omega
  · exact Nat.lt_of_lt_of_le (sizeOf_parent_lt t hp) enough

theorem asSeenFrom_of_package (package : (t.get owner).isPackageClass = true) (fuel : Nat)
    (ty pre : Ty) : asSeenFrom (fuel + 1) ty pre owner t = .ok ty t := by
  unfold asSeenFrom
  split
  · rfl
  · have stops : (!(t.get owner).isClass || (t.get owner).isPackageClass || pre == .this owner) =
      true := by
      simp [package]
    exact congrFun (if_pos stops) t

theorem asSeenFrom_package {I : SymbolTable → Prop}
    (kept : t.Kept I) {pre : Ty} (h : t.IsPackage owner)
    (fuel : Nat) (ty : Ty) : Attains I (0 < fuel) (asSeenFrom fuel ty pre owner) (· = ty) := by
  cases fuel with
  | zero => exact .fail (by simp)
  | succ fuel =>
    refine .of_run fun t' ht' => ⟨ty, t', asSeenFrom_of_package ?_ fuel ty pre, ht', rfl⟩
    rw [kept ht', h.isPackageClass]

theorem firstPresent_attains {α : Type} {I : SymbolTable → Prop}
    {f : α → SymM Ty} {as : List α} {A : α → Prop}
    [DecidablePred A] {P : α → Ty → Prop} (present : ∀ a ty, P a ty → ty.isPresent = true)
    (h : ∀ a ∈ as, Attains I ok (f a) fun ty => ¬ A a ∧ ty = .noType ∨ A a ∧ P a ty) :
    Attains I ok (View.firstPresent f as) fun ty =>
      as.find? (fun a => decide (A a)) = none ∧ ty = .noType ∨
        ∃ a, as.find? (fun a => decide (A a)) = some a ∧ P a ty := by
  induction as with
  | nil => exact .pure (.inl ⟨rfl, rfl⟩)
  | cons a as ih =>
    unfold View.firstPresent
    refine (h a (by simp)).bind fun ty hty => ?_
    obtain ⟨hA, rfl⟩ | ⟨hA, hP⟩ := hty
    · simp only [Ty.isPresent, Bool.false_eq_true, if_false, List.find?_cons, hA, decide_false]
      exact ih fun b hb => h b (by simp [hb])
    · simp only [present a ty hP, if_true, List.find?_cons, hA, decide_true]
      exact .pure (.inr ⟨a, rfl, hP⟩)

theorem substTypes_nil (fuel : Nat) (args : List Ty) (ty : Ty) :
    Yields t (0 < fuel) (substTypes fuel [] args ty) (· = ty) := by
  cases fuel with
  | zero => exact .fail (by simp)
  | succ fuel => exact .pure rfl

theorem anyRef_expandAlias (ht : t.Plain) (fuel : Nat) (pre : Ty) :
    Yields t (0 < fuel) (View.expandAlias fuel (asSeenFrom fuel) pre Known.anyRef [])
      (· = Known.objectType) := by
  unfold View.expandAlias
  refine (record_yields _).bind fun r hr => ?_
  have tparams : r.tparams = [] := hr ▸ ht.anyRef_tparams
  have info : r.info = Known.objectType := hr ▸ ht.anyRef_info
  have owned : t.IsPackage r.owner := hr ▸ ht.anyRef_owned
  rw [tparams, info]
  refine (asSeenFrom_package Remembers.get_eq owned fuel _).bind fun seen hseen => ?_
  exact hseen ▸ substTypes_nil fuel [] seen

theorem anyRef_dealias (ht : t.Plain) (fuel : Nat) (pre : Ty) : Yields t (0 < fuel)
    (View.dealias fuel (asSeenFrom fuel) Limits.aliasSteps (.ref pre Known.anyRef []))
      (· = Known.objectType) := by
  show Yields t _ (View.dealias fuel _ (126 + 1 + 1) _) _
  unfold View.dealias
  refine (record_yields _).bind fun r hr => ?_
  have tparams : r.tparams = [] := hr ▸ ht.anyRef_tparams
  simp only [hr ▸ ht.anyRef_isAliasType, tparams, List.length_nil, bne_self_eq_false, Bool.not_true,
    Bool.or_self, Bool.false_eq_true, if_false]
  refine (anyRef_expandAlias ht fuel pre).bind fun object hobject => ?_
  rw [hobject]
  unfold View.dealias
  refine (record_yields _).bind fun r hr => ?_
  have kind : r.kind = .plainClass := hr ▸ ht.object.kind
  simp only [SymbolRecord.isAliasType, kind]
  exact .pure rfl

/-- The supertype of `l` at `d` that is found first. -/
def IsBaseType (t : SymbolTable) (l : Ty) (d : SymbolId) (found : Ty) : Prop :=
  ∃ pkg bs, found = .ref (.this pkg) d bs ∧ t.IsPackage pkg ∧ t.Nearest d l bs

/-- The search for a base type through the parent `p` of `c[args]`, where `next` searches on. -/
theorem parent_yields (ht : t.Plain) {next : Ty → SymM Ty} (hl : t.Applied pkg c args)
    (hp : p ∈ (t.get c).parents) (direct : ∀ pkg' e as, t.ParentStep c e → t.Applied pkg' e as →
      Yields t (Fueled t fuel) (next (.ref (.this pkg') e as))
        fun ty => ¬ t.Derives e d ∧ ty = .noType ∨ IsBaseType t (.ref (.this pkg') e as) d ty)
    (anyRef : ∀ pkg', t.ParentStep c Known.object →
      Yields t (Fueled t fuel) (next (.ref (.this pkg') Known.anyRef []))
        fun ty => ¬ t.Derives Known.object d ∧ ty = .noType ∨ IsBaseType t Known.objectType d ty) :
    Yields t (Fueled t fuel) (do
      let parentClass := (← get).parentClass p
      if !parentClass.isPresent then return .noType
      if !(← isNonBottomSubClass parentClass d) then return .noType
      let seen ← asSeenFrom fuel p (.this pkg) (t.get c).owner
      let seen ← if args.length = (t.get c).tparams.length then
        substTypes fuel (t.get c).tparams args seen
        else pure seen
      next seen)
      fun ty => ¬ t.LeadsTo d p.counted ∧ ty = .noType ∨
        t.LeadsTo d p.counted ∧ IsBaseType t (p.counted.inst (t.tparams c) args) d ty := by
  have hc := hl.plain
  have step : t.ParentStep c (t.parentClass p) := (ht.parentStep_iff hc).2 (List.mem_map_of_mem hp)
  have leads : t.LeadsTo d p.counted ↔ t.Derives (t.parentClass p) d := by
    obtain ⟨_, _, eq⟩ := ht.parentClass_counted hc hp
    rw [eq]
    exact Iff.rfl
  rw [leads]
  refine .bind .get fun t1 ht1 => ?_
  rw [ht1.parentClass_eq]
  simp only [(ht.step_plain step).present, Bool.not_true, Bool.false_eq_true, if_false]
  refine ((isNonBottomSubClass_yields ht (ht.step_plain step) d).of_ok fun _ =>
    trivial).bind fun sub hsub => ?_
  cases sub with
  | false => exact .pure (.inl ⟨by simpa using hsub, rfl⟩)
  | true =>
    have derives : t.Derives (t.parentClass p) d := hsub.1 rfl
    simp only [Bool.not_true, Bool.false_eq_true, if_false]
    refine ((asSeenFrom_package Remembers.get_eq hc.owned fuel p).of_ok Fueled.pos).bind
      fun seen hseen => ?_
    subst hseen
    have arity : args.length = (t.get c).tparams.length := hl.arity
    rw [if_pos arity]
    obtain ⟨pkg', e, as, rfl, shape⟩ := ht.parents c hc _ hp
    have isTerm : Ty.IsTerm (t.tparams c) (.ref (.this pkg') e as) := by
      obtain ⟨-, -, rfl⟩ | term := shape
      · exact .app (by simp)
      · exact term.isTerm
    refine ((substTypes_term isTerm arity fuel).of_ok fun ok =>
      ok.parents c hc _ hp).bind fun seen hseen => ?_
    rw [hseen, Ty.inst_app]
    obtain ⟨package, rfl, rfl⟩ | term := shape
    · rw [ht.parentClass_anyRef] at step derives ⊢
      refine (anyRef pkg' step).imp fun ty hty => hty.imp_right fun found => ⟨derives, ?_⟩
      rwa [show Ty.counted (.ref (.this pkg') Known.anyRef []) = Known.objectType from rfl,
        ClassType.inst_eq (ht.objectType_term [])]
    · obtain ⟨_, _, _, eq, -, -, applied⟩ := ht.super_applied hl (List.mem_map_of_mem hp)
      rw [ht.counted_of_term term] at eq ⊢
      cases eq
      rw [term.isPlainClass.parentClass] at step derives ⊢
      rw [Ty.inst_app]
      exact (direct _ _ _ step applied).imp fun ty hty =>
        hty.imp_right fun found => ⟨derives, found⟩

/-- `AnyRef` has the base types of `Object`, one hop further. -/
theorem anyRef_baseType (ht : t.Plain) {P : Ty → Prop}
    (hd : t.IsPlainClass d) (h : Yields t (Fueled t fuel)
    (View.baseTypeUpTo fuel (asSeenFrom fuel) d n Known.objectType) P) : Yields t (Fueled t fuel)
      (View.baseTypeUpTo fuel (asSeenFrom fuel) d (n + 1) (.ref (.this pkg) Known.anyRef []))
        P := by
  unfold View.baseTypeUpTo
  have ne : (Known.anyRef == d) = false := by simpa using (ht.ne_anyRef hd).symm
  simp only [ne, Bool.false_eq_true, if_false]
  refine (record_yields _).bind fun r hr => ?_
  subst hr
  simp only [ht.anyRef_isClass, ht.anyRef_isAliasType, Bool.false_eq_true, if_false, if_true]
  refine ((anyRef_dealias ht fuel (.this pkg)).of_ok Fueled.pos).bind fun expanded hexpanded => ?_
  subst hexpanded
  rw [if_neg (by intro eq; cases eq)]
  exact h

theorem baseTypeUpTo_yields (ht : t.Plain) {k : Nat}
    (hl : t.Applied pkg c args) (hd : t.IsPlainClass d) (within : t.Within k c)
    (hops : k + 1 ≤ n ∨ k ≤ n ∧ t.Derives Known.object c) : Yields t (Fueled t fuel)
    (View.baseTypeUpTo fuel (asSeenFrom fuel) d n (.ref (.this pkg) c args))
      fun ty => ¬ t.Derives c d ∧ ty = .noType ∨ IsBaseType t (.ref (.this pkg) c args) d ty := by
  classical
  induction k generalizing n pkg c args with
  | zero => exact absurd within (t.not_within_zero c)
  | succ k ih =>
    have hc := hl.plain
    obtain ⟨n, rfl⟩ : ∃ m, n = m + 1 := ⟨n - 1, by omega⟩
    unfold View.baseTypeUpTo
    by_cases eq : c = d
    · subst eq
      simp only [beq_self_eq_true, if_true]
      exact .pure (.inr ⟨_, _, rfl, hl.package, .here⟩)
    · simp only [beq_iff_eq, eq, if_false]
      refine (record_yields _).bind fun r hr => ?_
      subst hr
      simp only [hc.isClass, if_true]
      refine ((isNonBottomSubClass_yields ht hc d).of_ok fun _ => trivial).bind fun sub hsub => ?_
      cases sub with
      | false => exact .pure (.inl ⟨by simpa using hsub, rfl⟩)
      | true =>
        simp only [Bool.not_true, Bool.false_eq_true, if_false]
        refine (firstPresent_attains (A := fun p => t.LeadsTo d p.counted)
          (P := fun p => IsBaseType t (p.counted.inst (t.tparams c) args) d) ?_ fun p hp =>
          parent_yields ht hl hp ?_ ?_).imp fun ty hty => ?_
        · rintro _ ty ⟨_, _, rfl, -⟩
          rfl
        · intro pkg' e as step applied
          refine ih applied (within.step step) ?_
          obtain h | ⟨h, derives⟩ := hops
          · exact .inl (by omega)
          · exact .inr ⟨by omega, derives.tail step⟩
        · intro pkg' step
          obtain h | ⟨h, derives⟩ := hops
          · -- the hop through `AnyRef` is the one to spare, and it leads to `Object` for good
            obtain ⟨n, rfl⟩ : ∃ m, n = m + 1 := ⟨n - 1, by omega⟩
            exact anyRef_baseType ht hd
              (ih (ht.objectType_term []).applied (within.step step) (.inr ⟨by omega, .refl⟩))
          · exact absurd derives (ht.not_derives step)
        · have supers : (t.supers c).find? (fun g => decide (t.LeadsTo d g)) =
              ((t.get c).parents.find? fun p => decide (t.LeadsTo d p.counted)).map Ty.counted :=
              List.find?_map ..
          obtain ⟨none, rfl⟩ | ⟨p, first, pkg', bs, rfl, package, found⟩ := hty
          · refine .inl ⟨fun derives => ?_, rfl⟩
            obtain rfl | ⟨e, ⟨-, pre, as, mem⟩, rest⟩ := derives_iff.1 derives
            · exact eq rfl
            · rw [none, Option.map_none, List.find?_eq_none] at supers
              exact supers _ mem (decide_eq_true (show t.LeadsTo d (.ref pre e as) from rest))
          · rw [first, Option.map_some] at supers
            exact .inr ⟨pkg', bs, rfl, package, .up eq hc supers found⟩

theorem baseType_yields (ht : t.Plain) (fuel : Nat) (hl : t.Applied pkg c args)
    (hd : t.IsPlainClass d) : Yields t (Fueled t fuel) (baseType fuel (.ref (.this pkg) c args) d)
      fun ty => ¬ t.Derives c d ∧ ty = .noType ∨ IsBaseType t (.ref (.this pkg) c args) d ty :=
  baseTypeUpTo_yields ht hl hd (ht.within c) (.inl (by decide))

end SymM

end Conformance

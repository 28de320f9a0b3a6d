import Conformance.Proofs.Classes.Contract
import Conformance.Proofs.Declarations

/-! # Nothing is below every type of values

The rule for `Nothing` is the last one of the cascade. A type of values is one for which the cascade
gets there, or to another success, past the rules that come before: through the raw type's
existential, the info of a refinement class, the expansion of an alias, the parents of a refined
type and the bound of a wildcard. The rules on the way may enter symbols, so what an alias or a
bound stands for is asked of every table that the present one grows to. -/

namespace Conformance

variable {b : Bool} {args : List Ty} {pre : Ty}

open SymbolTable CheckM

variable {s : SymbolId} {t' : SymbolTable} {fuel : Nat}

namespace SymbolTable

/-- References to symbols that are no aliases, what aliases and wildcards stand for, and all that is
built from such types. -/
inductive ValueType (fuel : Nat) : SymbolTable → Ty → Prop where
  | ref {t : SymbolTable} {pre : Ty} {s : SymbolId}
      {args : List Ty} (entered : s.val < t.size) (notAlias : (t.get s).isAliasType = false)
      (refinement : (t.get s).isRefinementClass = true → (t.get s).info.isPresent = true →
      ValueType fuel t (t.get s).info) : ValueType fuel t (.ref pre s args)
  | expands {t : SymbolTable} {pre : Ty} {s : SymbolId} {args : List Ty} (entered : s.val < t.size)
      (isAlias : (t.get s).isAliasType = true) (applied : args.length = (t.tparams s).length)
      (expansion : ∀ {t' ty t''}, t.Extends t.size t' →
        View.expandAlias fuel (asSeenFrom fuel) pre s args t' = .ok ty t'' →
          ValueType fuel t'' ty) : ValueType fuel t (.ref pre s args)
  | this {t : SymbolTable} (s : SymbolId) : ValueType fuel t (.this s)
  | single {t : SymbolTable} (pre : Ty) (s : SymbolId) : ValueType fuel t (.single pre s)
  | const {t : SymbolTable} (value : Constant) : ValueType fuel t (.const value)
  | poly {t : SymbolTable} (ps : List SymbolId) (result : Ty) : ValueType fuel t (.poly ps result)
  | exist {t : SymbolTable} (qs : List SymbolId) (body : Ty) : ValueType fuel t (.exist qs body)
  | refined {t : SymbolTable} {parents : List Ty} (decls : List SymbolId) (cls : SymbolId)
      (each : ∀ p ∈ parents, ValueType fuel t p) : ValueType fuel t (.refined parents decls cls)
  | notNull {t : SymbolTable} {body : Ty} (inner : ValueType fuel t body) :
    ValueType fuel t (.notNull body)
  | wildcard {t : SymbolTable} {bounds : Ty} (upper : ∀ {t' hi t''}, t.Extends t.size t' →
      upperBound fuel bounds t' = .ok hi t'' → ValueType fuel t'' hi) :
      ValueType fuel t (.boundedWildcard bounds)

variable {t t' t'' : SymbolTable} {fuel : Nat} {ty : Ty}

theorem ValueType.mono (h : t.ValueType fuel ty) (grown : t.Extends t.size t') :
    t'.ValueType fuel ty := by
  induction h with
  | ref entered notAlias _ ih =>
    rw [← grown.get_eq entered] at notAlias ih
    exact .ref (Nat.lt_of_lt_of_le entered grown.size_le) notAlias fun refinement present =>
      ih refinement present grown
  | expands entered isAlias applied expansion =>
    rw [tparams, ← grown.get_eq entered] at applied
    rw [← grown.get_eq entered] at isAlias
    exact .expands (Nat.lt_of_lt_of_le entered grown.size_le) isAlias applied fun later =>
      expansion (grown.next later)
  | this => exact .this _
  | single => exact .single _ _
  | const => exact .const _
  | poly => exact .poly _ _
  | exist => exact .exist _ _
  | refined decls cls _ ih => exact .refined decls cls fun p hp => ih p hp grown
  | notNull _ ih => exact .notNull (ih grown)
  | wildcard upper => exact .wildcard fun later => upper (grown.next later)

/-- What a wildcard with bounds stands for is its upper bound. -/
theorem ValueType.of_bounds (lo : Ty) {hi : Ty} (h : t.ValueType fuel hi) :
    t.ValueType fuel (.boundedWildcard (.bounds lo hi)) :=
  .wildcard fun grown run => by
    cases run
    exact h.mono grown

/-- `Nothing` is a class of the table. -/
structure HoldsNothing (t : SymbolTable) : Prop where
  entered : Known.nothing.val < t.size
  isClass : (t.get Known.nothing).isClass = true

theorem HoldsNothing.notAlias (h : t.HoldsNothing) : (t.get Known.nothing).isAliasType = false := by
  have isClass := h.isClass
  rw [SymbolRecord.isClass] at isClass
  rw [SymbolRecord.isAliasType]
  cases kind : (t.get Known.nothing).kind <;> simp_all [SymbolKind.isClass]

theorem HoldsNothing.mono (h : t.HoldsNothing) (grown : t.Extends t.size t') : t'.HoldsNothing :=
  ⟨Nat.lt_of_lt_of_le h.entered grown.size_le, by rw [grown.get_eq h.entered]; exact h.isClass⟩

theorem HoldsNothing.typeSymbol (h : t.HoldsNothing) (fuel : Nat) :
    typeSymbol fuel Known.nothingType t = .ok Known.nothing t := by
  show typeSymbolUpTo fuel (127 + 1) _ t = _
  unfold typeSymbolUpTo
  show (if (t.get Known.nothing).isAliasType then _ else _ : SymM SymbolId) t = _
  rw [h.notAlias]
  rfl

end SymbolTable

variable {t : SymbolTable} {n : Nat} {α : Type}

/-! ## Contracts -/

namespace CheckM

/-- The table has grown, the guard is back at its level and has counted no less. -/
structure Advances (s s' : CheckState) : Prop where
  grown : s.table.Extends s.table.size s'.table
  balanced : Balanced s s'

namespace Advances

variable {s s1 s2 : CheckState}

theorem refl (s : CheckState) : Advances s s := ⟨.refl _ _, .refl _⟩

theorem trans (h : Advances s s1) (h' : Advances s1 s2) : Advances s s2 :=
  ⟨h.grown.next h'.grown, h.balanced.trans h'.balanced⟩

end Advances

theorem Keeps.advances {x : CheckM α} (hx : Asked .all (fun _ _ => True) 0 x)
    (balanced : Keeps Balanced x) : Keeps Advances x := fun s =>
  ⟨(hx.onward (Scope.all_closed _) (Nat.zero_le _) trivial).grown, balanced s⟩

/-- Over tables that `t` grows to and with `n` levels left, every answer is `true` unless the guard
refused an entry. -/
def Grants (t : SymbolTable) (n : Nat) (x : CheckM Bool) : Prop :=
  ∀ s b s', t.Extends t.size s.table → s.guard.maxDepth ≤ s.guard.depth + n → x s = .ok b s' →
    Advances s s' ∧ (b = true ∨ Counted s s')

namespace Grants

variable {x : CheckM Bool}

theorem pure : Grants t n (Pure.pure true) := by
  rintro s b s' - - run
  cases run
  exact ⟨.refl _, .inl rfl⟩

/-- What is granted is granted after any step. -/
theorem later (hx : Grants t n x) {s s1 s' : CheckState} (grown : t.Extends t.size s.table)
    (levels : s.guard.maxDepth ≤ s.guard.depth + n) (step : Advances s s1) (run : x s1 = .ok b s') :
    Advances s s' ∧ (b = true ∨ Counted s s') := by
  have balanced := step.balanced
  obtain ⟨later, granted⟩ := hx s1 b s' (grown.next step.grown)
    (by rw [balanced.maxDepth, balanced.depth]; exact levels) run
  exact ⟨step.trans later, granted.imp_right balanced.counted_right⟩

/-- After a step that may have done anything that rules do. -/
theorem after {x : CheckM α} {f : α → CheckM Bool}
    (hx : Keeps Advances x) (hf : ∀ a, Grants t n (f a)) : Grants t n (x >>= f) := by
  intro s b s' grown levels run
  obtain ⟨a, s1, first, rest⟩ := exists_of_bind run
  have step := hx s
  rw [after_ok first] at step
  exact (hf a).later grown levels step rest

theorem operation {x : SymM α} {f : α → CheckM Bool}
    (builds : x.OnlyBuilds) (h : ∀ {t' a t''}, t.Extends t.size t' → t.Extends t.size t'' →
    x t' = .ok a t'' → Grants t'' n (f a)) : Grants t n (onTable x >>= f) := by
  intro s b s' grown levels run
  obtain ⟨a, s1, first, rest⟩ := exists_of_bind run
  obtain ⟨t'', run', rfl⟩ := exists_of_onTable first
  have built := builds.extends run'
  obtain ⟨later, granted⟩ := h grown (grown.next built)
    run' { s with table := t'' } b s' (.refl _ _) levels rest
  exact ⟨⟨built.next later.grown, { later.balanced with }⟩, granted⟩

theorem reading {f : SymbolTable → CheckM Bool}
    (h : ∀ t', t.Extends t.size t' → Grants t' n (f t')) : Grants t n (readTable >>= f) :=
    fun s b s' grown levels run => h s.table grown s b s' (.refl _ _) levels run

theorem onTable {op : SymM Bool} (builds : op.OnlyBuilds)
    (h : ∀ {t b t'}, op t = .ok b t' → b = true) : Grants t n (CheckM.onTable op) := by
  intro s b s' _ _ run
  obtain ⟨t'', run', rfl⟩ := exists_of_onTable run
  exact ⟨⟨builds.extends run', { Balanced.refl s with }⟩, .inl (h run')⟩

/-- A question that is granted, then one that goes on from its success. -/
theorem and {f : Bool → CheckM Bool} (hx : Grants t n x)
    (no : f false = Pure.pure false) (hf : Grants t n (f true)) : Grants t n (x >>= f) := by
  intro s b s' grown levels run
  obtain ⟨a, s1, first, rest⟩ := exists_of_bind run
  obtain ⟨step, granted⟩ := hx s a s1 grown levels first
  cases a with
  | false =>
    rw [no] at rest
    cases rest
    exact ⟨step, .inr (granted.resolve_left nofun)⟩
  | true => exact hf.later grown levels step rest

theorem allM {β : Type} {f : β → CheckM Bool} {bs : List β}
    (h : ∀ b ∈ bs, Grants t n (f b)) : Grants t n (bs.allM f) := by
  induction bs with
  | nil => exact .pure
  | cons b bs ih =>
    obtain ⟨first, others⟩ := List.forall_mem_cons.1 h
    exact first.and rfl (ih others)

theorem ite {c : Prop} [Decidable c] {y : CheckM Bool}
    (hx : c → Grants t n x) (hy : ¬ c → Grants t n y) : Grants t n (if c then x else y) := by
  split
  next hc => exact hx hc
  next hc => exact hy hc

/-- A query asks its rule with one level less; a refused one is counted. -/
theorem query {enter : Guard.Entering} (admits : Guard.Admits enter) (op : Relation)
    (depth : Option Nat) (kept : Keeps Advances (reported op depth (guarded enter x)))
    (hx : ∀ m, n = m + 1 → Grants t m x) : Grants t n (reported op depth (guarded enter x)) := by
  intro s b s' grown levels run
  refine ⟨by simpa only [after_ok run] using kept s, ?_⟩
  obtain ⟨maxDepth, admission⟩ := admits s.guard
  obtain ⟨refused, rfl, rfl⟩ | ⟨entry, s1, entered, rule, rfl⟩ := query_ok run
  · obtain h | h := refused <;>
    · rw [h] at admission
      exact .inr (by simpa [Counted] using admission.2.2.2)
  · rw [entered] at admission
    obtain ⟨room, deeper, cycles, cutoffs⟩ := admission
    have granted := (hx (n - 1) (by omega) _ b s1 (by simpa [opened] using grown)
      (by simp [opened]; omega) rule).2
    cases b with
    | true => exact .inl rfl
    | false => simpa [Counted, opened, cycles, cutoffs, left, Guard.leave, undone] using granted

end Grants

end CheckM

/-! ## The cascade -/

namespace SymbolTable.ValueType

variable {fuel : Nat} {ty : Ty}

theorem ordinary (h : t.ValueType fuel ty) : ty.isPresent = true ∧ ty ≠ .noPrefix := by
  cases h <;> exact ⟨rfl, nofun⟩

theorem entered (h : t.ValueType fuel (.ref pre s args)) : s.val < t.size := by
  cases h <;> assumption

/-- An alias is expanded to a type of values, and a constructor becomes a lambda. -/
theorem normalizeUpTo {k : Nat} {ty' : Ty} (h : t.ValueType fuel ty)
    (run : Conformance.normalizeUpTo fuel k ty t = .ok ty' t') : t'.ValueType fuel ty' := by
  induction k generalizing ty t with
  | zero =>
    cases run
    exact h
  | succ k ih =>
    cases h with
    | @ref _ pre s args entered notAlias refinement =>
      change (if (t.get s).isAliasType then _ else _ : SymM Ty) t = _ at run
      rw [notAlias, if_neg Bool.false_ne_true] at run
      change (if (!(t.get s).tparams.isEmpty && args.isEmpty && !t.isRaw (.ref pre s args)) =
        true then _ else _ : SymM Ty) t = _ at run
      split at run
      next bare =>
        have params : (t.get s).tparams ≠ [] := by
          intro none
          simp [none] at bare
        cases run
        rw [Ty.lambda, if_neg (by simpa using params)]
        exact .poly _ _
      next =>
        cases run
        exact .ref entered notAlias refinement
    | @expands _ pre s args entered isAlias applied expansion =>
      change (if (t.get s).isAliasType then _ else _ : SymM Ty) t = _ at run
      have full : ((t.get s).tparams.isEmpty || (t.get s).tparams.length == args.length) =
        true := by
        rw [applied, SymbolTable.tparams, beq_self_eq_true, Bool.or_true]
      rw [isAlias, if_pos rfl, if_pos full] at run
      obtain ⟨expanded, t1, first, rest⟩ := exists_of_bind run
      exact ih (expansion (.refl _ _) first) rest
    | refined decls cls each =>
      cases run
      exact .refined decls cls each
    | notNull inner =>
      cases run
      exact .notNull inner
    | wildcard upper =>
      cases run
      exact .wildcard upper
    | this | single | const | poly | exist =>
      cases run
      constructor

end SymbolTable.ValueType

theorem SymbolTable.HoldsNothing.applied_mono (h : t.HoldsNothing) (grown : t.Extends t.size t') :
    t'.isHigherKinded Known.nothingType = t.isHigherKinded Known.nothingType := by
  simp only [isHigherKinded, Known.nothingType, Known.scalaRef, isRaw, grown.get_eq h.entered]

/-- `Nothing` is in normal form, unless it is a constructor. -/
theorem SymbolTable.HoldsNothing.normalize (h : t.HoldsNothing)
    (applied : t.isHigherKinded Known.nothingType = false) :
    normalize fuel Known.nothingType t = .ok Known.nothingType t := by
  show normalizeUpTo fuel (127 + 1) _ t = _
  unfold normalizeUpTo
  show (if (t.get Known.nothing).isAliasType then _ else _ : SymM Ty) t = _
  have bare : (!(t.get Known.nothing).tparams.isEmpty &&
    ([] : List Ty).isEmpty && !t.isRaw Known.nothingType) = false := by
    rw [Bool.and_comm (!_) _]
    exact applied
  rw [h.notAlias, if_neg Bool.false_ne_true]
  exact congrFun (if_neg (bare ▸ Bool.false_ne_true)) t

/-- Queries find `Nothing` below every type of values. -/
def Queries.Grant (q : Queries) (fuel n : Nat) : Prop :=
  ∀ {t : SymbolTable} {ty : Ty}, t.HoldsNothing → t.ValueType fuel ty →
    ∀ depth, Grants t n (q.sub Known.nothingType ty depth)

section Cascade

variable {cfg : Config} (ha : ∀ l r, (cfg.annotations l r).OnlyBuilds)

theorem onTable_advances {x : SymM α} (hx : x.OnlyBuilds) : Keeps Advances (onTable x) :=
  .advances (onTable_upheld instantiating_all.toUpkeep fun _ =>
    (hx.safe fun _ _ => trivial).keeping) (onTable_balanced x)

theorem run_advances (fuel : Nat) (op : TypeOperation) : Keeps Advances (onTable (op.run fuel)) :=
  onTable_advances (op.run_onlyBuilds fuel)

theorem isStable_nothing (run : isStable fuel Known.nothingType t = .ok b t') : b = true := by
  cases fuel <;> cases run
  rfl

theorem isNotNull_nothing (run : isNotNull fuel Known.nothingType t = .ok b t') : b = true := by
  cases fuel with
  | zero => cases run
  | succ fuel =>
    change (if ((t.get Known.nothing).isModuleClass || Known.nothing == Known.nothing) =
      true then _ else _ : SymM Bool) t = _ at run
    rw [beq_self_eq_true, Bool.or_true, if_pos rfl] at run
    cases run
    rfl

theorem rawToExistential_value {ty : Ty} (raw : t.isRaw (.ref pre s args) = true)
    (run : rawToExistential fuel (.ref pre s args) t = .ok ty t') : t'.ValueType fuel ty := by
  have params : (t.tparams s).isEmpty = false := by
    simp only [isRaw, Bool.and_eq_true, Bool.not_eq_true'] at raw
    exact raw.1.2
  change (if (t.tparams s).isEmpty then _ else _ : SymM Ty) t = _ at run
  rw [params, if_neg Bool.false_ne_true] at run
  obtain ⟨quantified, t1, entered, run⟩ := exists_of_bind run
  obtain ⟨-, t2, -, run⟩ := exists_of_bind run
  cases run
  have some : quantified.isEmpty = false := by
    cases quantified with
    | nil =>
      rw [List.isEmpty_eq_false_iff_exists_mem] at params
      obtain ⟨p, mem⟩ := params
      rw [List.eq_nil_of_length_eq_zero (length_of_mapM entered).symm] at mem
      cases mem
    | cons => rfl
  rw [Ty.existential, some]
  exact .exist _ _

include ha

theorem upheld_all : (cfg.queriesUpTo n).Upheld .all fun _ _ => True :=
  cfg.queriesUpTo_upheld instantiating_all (fun _ _ => ((ha _ _).safe fun _ _ => trivial).keeping) n

theorem upheld_walks : (cfg.queriesUpTo n).Walks .all .same (fun n x _ Q =>
    Upheld .all (fun _ _ => True) n x Q) (cfg.queriesUpTo n) := (upheld_all ha).walks

theorem sub_advances (l r : Ty) (depth : Depth) : Keeps
    Advances ((cfg.queriesUpTo n).sub l r depth) :=
  .advances ((upheld_all ha).sub (Scope.all_ty l) (Scope.all_ty r) depth)
    ((cfg.queriesUpTo_balanced n).sub l r depth)

theorem constructorConforms_advances (pre1 pre2 : Ty) (s1 s2 : SymbolId) (depth : Depth) :
    Keeps Advances (constructorConforms cfg (cfg.queriesUpTo n) pre1 s1 pre2 s2 depth) :=
  .advances (constructorConforms_walks (upheld_walk instantiating_all.toUpkeep)
    (upheld_walks ha) (Scope.all_ty _) (Scope.all_ty _) _ _ _)
    (balanced_lockstep.constructorConforms (cfg.queriesUpTo_balanced n) _ _ _ _ _)

theorem argsConform_advances (depth : Depth) (ls rs : List Ty) (ps : List SymbolId) :
    Keeps Advances (argsConform (cfg.queriesUpTo n) depth ls rs ps) :=
  .advances (argsConform_walks (upheld_walk instantiating_all.toUpkeep)
    (upheld_walks ha) depth (Scope.all_tys _) (Scope.all_tys _) ps)
    (balanced_lockstep.argsConform (cfg.queriesUpTo_balanced n) _ _ _ _)

theorem differentConstructor_advances (l r : Ty) :
    Keeps Advances (differentConstructor (cfg.queriesUpTo n) l r) :=
  .advances (@differentConstructor_walks _ _ _ _ _
    (upheld_walk instantiating_all.toUpkeep) _ (cfg.queriesUpTo n) 0 (speculated_upheld
    instantiating_all.toUpkeep (upheld_all ha)) l r (Scope.all_ty l) (Scope.all_ty r))
    (balanced_lockstep.toStepwise.differentConstructor (cfg.queriesUpTo_balanced n) _ _)

theorem conformsToExistential_advances (ty : Ty) (qs : List SymbolId) (body : Ty) (depth : Depth) :
    Keeps Advances (conformsToExistential cfg (cfg.queriesUpTo n) ty qs body depth) :=
  .advances (conformsToExistential_upheld instantiating_all.toUpkeep (upheld_all ha)
      (chooses_of_instantiating (upheld_all ha) instantiating_all)
      (Scope.all_ty _) (Scope.all_syms _) (Scope.all_ty _) depth)
    (balanced_lockstep.conformsToExistential (cfg.queriesUpTo_balanced n)
      (balanced_lockstep.solveOne_of_writes (cfg.queriesUpTo_balanced n) updateVar_balanced)
      _ _ _ _)

variable (hq : (cfg.queriesUpTo n).Grant cfg.fuel n) (ht : t.HoldsNothing) {depth : Depth}
include hq ht

theorem rightRef_nothing (applied : t.isHigherKinded Known.nothingType = false)
    (h : t.ValueType cfg.fuel (.ref pre s args)) :
    Grants t n (rightRef cfg (cfg.queriesUpTo n) Known.nothingType pre s args depth) := by
  refine .reading fun t' grown => ?_
  replace applied := (ht.applied_mono grown).trans applied
  replace ht := ht.mono grown
  replace h := h.mono grown
  clear grown
  have builds (op : TypeOperation) := op.run_onlyBuilds cfg.fuel
  refine .ite (fun _ => .onTable (builds (.isNotNull _)) isNotNull_nothing) fun _ =>
    .ite (fun _ => ?_) fun _ => ?_
  · refine .operation (builds (.isStable _)) fun _ _ run => ?_
    rw [isStable_nothing run]
    exact .pure
  have last : ∀ {t'}, Grants t' n (finalPass cfg (cfg.queriesUpTo n)
    Known.nothingType (.ref pre s args) depth) := .pure
  refine .ite (fun _ => .ite (fun raw => ?_) fun _ =>
    .ite (fun present => ?_) fun _ => last) fun _ =>
    .ite (fun _ => .after (onTable_advances (.of_safe fun b =>
      lowerBound_walks (safe_walk .all b) (Scope.all_ty _))) fun lo => ?_) fun _ =>
      .ite (fun isAlias => ?_) fun _ => last
  · refine .operation (builds (.rawToExistential _)) fun grown later run =>
      hq (ht.mono later) (rawToExistential_value ?_ run) depth
    have entered := h.entered
    rw [isRaw, grown.get_eq entered]
    exact raw
  · rw [Bool.and_eq_true] at present
    cases h with
    | ref _ _ refinement => exact hq ht (refinement present.1 present.2) depth
    | expands _ isAlias =>
      rw [SymbolRecord.isAliasType, beq_iff_eq] at isAlias
      rw [SymbolRecord.isRefinementClass, isAlias] at present
      cases present.1
  · refine .after (differentConstructor_advances ha _ _) fun different =>
      .ite (fun _ => ?_) fun _ => last
    refine .after (sub_advances ha _ _ _) fun below => .ite (fun _ => .pure) fun _ => last
  · refine .operation (builds (.normalize _)) fun grown _ run1 => ?_
    cases ((ht.mono grown).normalize ((ht.applied_mono grown).trans applied)).symm.trans run1
    refine .operation (builds (.normalize _)) fun grown2 later run2 =>
      .ite (fun _ => last) fun _ => ?_
    exact hq (ht.mono (grown.next later)) ((h.mono (grown.next grown2)).normalizeUpTo run2) depth

theorem refsConform_nothing (applied : t.isHigherKinded Known.nothingType = false)
    (h : t.ValueType cfg.fuel (.ref pre s args)) : Grants t n (refsConform cfg (cfg.queriesUpTo n)
    (.this Known.scalaClass) Known.nothing [] pre s args depth) := by
  refine .reading fun t' grown => ?_
  have last : Grants t' n (rightRef cfg (cfg.queriesUpTo n) Known.nothingType pre s args depth) :=
    rightRef_nothing ha hq (ht.mono grown) ((ht.applied_mono grown).trans applied) (h.mono grown)
  have rest : Grants t' n (baseSearch cfg (cfg.queriesUpTo n)
    (.this Known.scalaClass) Known.nothing [] pre s args depth t') :=
    .ite (fun _ => .after (run_advances cfg.fuel (.baseType _ s)) fun base =>
      .ite (fun _ => .after (sub_advances ha _ _ _) fun _ =>
      .ite (fun _ => .pure) fun _ => last) fun _ => last) fun _ => last
  refine .after (constructorConforms_advances ha _ _ _ _ _) fun _ =>
    .ite (fun _ => ?_) fun _ => rest
  exact .after (argsConform_advances ha _ _ _ _) fun _ => .ite (fun _ => .pure) fun _ => rest

theorem subStep_nothing {ty : Ty} (h : t.ValueType cfg.fuel ty) :
    Grants t n (subStep cfg (cfg.queriesUpTo n) Known.nothingType ty depth) := by
  refine .ite (fun _ => .pure) fun _ => .ite (fun absent => ?_) fun _ =>
    .ite nofun fun _ => .ite (fun prefixed => ?_) fun _ =>
    .ite nofun fun _ => .reading fun t' grown => .ite (fun _ => ?_) fun ordinary => ?_
  · rw [h.ordinary.1] at absent
    cases absent
  · exact absurd prefixed h.ordinary.2
  · refine .operation (TypeOperation.run_onlyBuilds cfg.fuel (.typeSymbol _)) fun grown' _ run => ?_
    cases ((ht.mono (grown.next grown')).typeSymbol cfg.fuel).symm.trans run
    exact .pure
  replace h := h.mono grown
  replace ht := ht.mono grown
  rw [Bool.or_eq_true, not_or, Bool.not_eq_true, Bool.not_eq_true] at ordinary
  clear grown
  cases h with
  | ref entered notAlias refinement =>
    exact refsConform_nothing ha hq ht ordinary.1 (.ref entered notAlias refinement)
  | expands entered isAlias arity expansion =>
    exact refsConform_nothing ha hq ht ordinary.1 (.expands entered isAlias arity expansion)
  | this | single | const => exact .pure
  | poly => cases ordinary.2
  | exist qs body =>
    exact .after (conformsToExistential_advances ha _ _ _ _) fun _ =>
      .ite (fun _ => .pure) fun _ => .pure
  | refined decls cls each =>
    refine .and (.allM fun p hp => hq ht (each p hp) depth) rfl (.allM fun d _ => ?_)
    refine .operation (TypeOperation.run_onlyBuilds cfg.fuel (.typeSymbol _)) fun grown _ run => ?_
    cases ((ht.mono grown).typeSymbol cfg.fuel).symm.trans run
    exact .pure
  | notNull inner =>
    refine .operation (TypeOperation.run_onlyBuilds cfg.fuel (.isNotNull _)) fun _ later run => ?_
    rw [isNotNull_nothing run]
    exact hq (ht.mono later) (inner.mono later) depth
  | wildcard upper =>
    exact .operation (.of_safe fun b => upperBound_walks (safe_walk .all b) (Scope.all_ty _))
      fun grown later run =>
      hq (ht.mono later) (upper grown run) depth

end Cascade

namespace Config

section Queries

variable {cfg : Config} (ha : ∀ l r, (cfg.annotations l r).OnlyBuilds)
include ha

theorem queriesUpTo_grant (n : Nat) : (cfg.queriesUpTo n).Grant cfg.fuel n := by
  induction n with
  | zero =>
    exact fun {_ ty} _ _ depth => .query (Guard.admits_enter _)
      _ _ (sub_advances (n := 0) ha _ ty depth) nofun
  | succ n ih =>
    refine fun {_ ty} ht h depth => .query (Guard.admits_enter _)
      _ _ (sub_advances (n := n + 1) ha _ ty depth) fun m eq => ?_
    obtain rfl : n = m := by simpa using eq
    exact subStep_nothing ha ih ht h

/-- `Nothing` conforms to every type of values, whatever the table, the state, the policy and the
depth, as far as the query gives an answer and its guard refuses no entry. -/
theorem nothing_below_value_types {s s' : CheckState} {ty : Ty}
    {depth : Depth} {b : Bool} (ht : s.table.HoldsNothing) (h : s.table.ValueType cfg.fuel ty)
    (run : cfg.isSubtypeDepth Known.nothingType ty depth s = .ok b s') : b = true ∨ Counted s s' :=
  (queriesUpTo_grant ha (levelsLeft s) ht h depth s b s' (.refl _ _)
    (by unfold levelsLeft; omega) run).2

end Queries

/-- A Java class with a parameter, and a refinement class. -/
def rawLibrary : SymbolTable :=
  let enter (name : String) (kind : SymbolKind) (tparams : List SymbolId)
    (flags : Flags) : SymbolRecord :=
    { id := .none, name, owner := Known.scalaClass, kind, flags, tparams
      parents := [Known.anyType] }
  SymbolTable.initial.add (enter "A" .typeParam [] .empty)
    |>.add (enter "Box" .plainClass [⟨Known.count⟩] (.single .java))
    |>.add (enter "<refinement>" .refinementClass [] .empty)

/-- `Nothing` is found below a wildcard through its bound, both parents and the existential of the
raw class. -/
theorem nothing_below_raw_wildcard :
    let t := rawLibrary
    let cfg (maxDepth : Nat) : Config :=
      { policy := { maxDepth }, annotations := .typeConstraints, fuel := 1000 }
    let ty : Ty := .boundedWildcard (.bounds Known.nothingType (.notNull
      (.refined [Known.javaLangRef Known.string, Known.scalaRef ⟨Known.count + 1⟩]
        [] ⟨Known.count + 2⟩)))
    let s (maxDepth : Nat) : CheckState := .fresh { maxDepth } t 0 #[]
    t.HoldsNothing ∧ t.ValueType 1000 ty ∧ ((cfg 100).isSubtype Known.nothingType ty).answer?
      (s 100) = some true ∧ ∀ maxDepth b s', (cfg maxDepth).isSubtype
      Known.nothingType ty (s maxDepth) = .ok b s' → b = true ∨ Counted (s maxDepth) s' := by
  intro t cfg ty s
  have facts : ((Known.nothing.val < t.size ∧ (t.get Known.nothing).isClass = true) ∧
      ((cfg 100).isSubtype Known.nothingType ty).answer? (s 100) = some true) ∧
      ∀ c ∈ [Known.string, ⟨Known.count + 1⟩], c.val < t.size ∧ (t.get c).isAliasType = false ∧
        (t.get c).isRefinementClass = false := by decide +kernel
  clear_value t
  obtain ⟨⟨nothing, deep⟩, classes⟩ := facts
  have holds : t.HoldsNothing := ⟨nothing.1, nothing.2⟩
  have named (pre : Ty) {c : SymbolId} (mem : c ∈ [Known.string, ⟨Known.count + 1⟩]) :
    t.ValueType 1000 (.ref pre c []) :=
    .ref (classes c mem).1 (classes c mem).2.1 fun refinement =>
      absurd ((classes c mem).2.2.symm.trans refinement) nofun
  have value : t.ValueType 1000 ty := by
    refine .of_bounds _ (.notNull (.refined _ _ fun p mem => ?_))
    simp only [List.mem_cons, List.not_mem_nil, or_false] at mem
    rcases mem with rfl | rfl <;> exact named _ (by simp)
  have builds (maxDepth : Nat) (l r : Ty) : ((cfg maxDepth).annotations l r).OnlyBuilds := .refl
  exact ⟨holds, value, deep, fun maxDepth b s' run =>
    nothing_below_value_types (builds maxDepth) (s := s maxDepth) holds value run⟩

end Config

end Conformance

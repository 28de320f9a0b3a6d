import Conformance.Proofs.Handles
import Conformance.Proofs.Scope.Rules

/-! # Operations that are no declarations leave declarations as they are

Views of types, maps over types and queries enter symbols: copies of binders, skolems, classes of
refinements. Each writes only the symbols that it entered itself, whether it answers or fails. This
is what contracts say where everything is in scope and nothing is asked of the variables. -/

namespace Conformance

variable {t t' : SymbolTable}

/-- The records are those of `t`, as they were, and after them new ones, which are numbered on. -/
def SymbolTable.Appends (t t' : SymbolTable) : Prop :=
  ∃ new : List SymbolRecord, t'.records.toList = t.records.toList ++ new ∧
    ∀ (i : Nat) (r : SymbolRecord), new[i]? = some r → r.id = ⟨t.size + i⟩

theorem SymbolTable.Appends.refl (t : SymbolTable) : t.Appends t :=
    ⟨[], (List.append_nil _).symm, fun _ _ h => nomatch h⟩

theorem SymbolTable.Extends.appends (h : t.Extends t.size t') : t.Appends t' := by
  have old : t'.records.toList.take t.size = t.records.toList := by
    refine List.ext_getElem? fun i => ?_
    rw [List.getElem?_take, Array.getElem?_toList, Array.getElem?_toList]
    split
    next hi => exact h.kept hi
    next hi => exact (Array.getElem?_eq_none (Nat.le_of_not_lt hi)).symm
  refine ⟨t'.records.toList.drop t.size, ?_, fun i r hr => ?_⟩
  · rw [← old, List.take_append_drop]
  · rw [List.getElem?_drop, Array.getElem?_toList] at hr
    have bound : t.size + i < t'.size := (Array.getElem?_eq_some_iff.1 hr).1
    have numbered := h.new (Nat.le_add_right _ _) bound
    rw [hr] at numbered
    exact Option.some.inj numbered

theorem SymbolTable.Appends.extends (h : t.Appends t') : t.Extends t.size t' := by
  obtain ⟨new, records, numbered⟩ := h
  have size : t'.size = t.size + new.length := by
    have := congrArg List.length records
    rwa [List.length_append, Array.length_toList, Array.length_toList] at this
  have kept : ∀ {i}, i < t.size → t'.records[i]? = t.records[i]? := fun {i} hi => by
    rw [← Array.getElem?_toList, records, List.getElem?_append_left (by exact hi),
      Array.getElem?_toList]
  refine ⟨by omega, kept, fun hi => by rw [kept hi], fun {i} hi hi' => ?_⟩
  have bound : i - t.size < new.length := by omega
  have entered : t'.records[i]? = new[i - t.size]? := by
    rw [← Array.getElem?_toList, records, List.getElem?_append_right (by exact hi)]
    rfl
  rw [entered, List.getElem?_eq_getElem bound, Option.map_some,
    numbered _ _ (List.getElem?_eq_getElem bound), Nat.add_sub_cancel' hi]

namespace SymM

variable {α : Type}

/-- Whatever the table, the operation only appends to it. -/
def OnlyBuilds (x : SymM α) : Prop := ∀ t : SymbolTable, t.Appends (x.after t)

theorem OnlyBuilds.extends {x : SymM α} (h : x.OnlyBuilds)
    {a : α} (run : x t = .ok a t') : t.Extends t.size t' := by
  have grown := (h t).extends
  unfold after at grown
  rw [run] at grown
  exact grown

end SymM

/-- A function on types that only builds. -/
structure Mapper where
  map : TypeMap
  builds (ty : Ty) : (map ty).OnlyBuilds

/-- What can be asked about types, given the declarations. -/
inductive TypeOperation where
  | normalize (ty : Ty)
  | dealias (ty : Ty)
  | widen (ty : Ty)
  | underlying (ty : Ty)
  | typeSymbol (ty : Ty)
  | isStable (ty : Ty)
  | isNotNull (ty : Ty)
  | refBounds (ty : Ty)
  | asSeenFrom (ty pre : Ty) (owner : SymbolId)
  | baseType (ty : Ty) (cls : SymbolId)
  | baseClasses (s : SymbolId)
  | baseClassesOf (ty : Ty)
  | isSubClass (s1 s2 : SymbolId)
  | findMember (ty : Ty) (name : String)
  | memberInfo (ty : Ty) (member : SymbolId)
  | memberType (ty : Ty) (member : SymbolId)
  | substSym (src dst : List SymbolId) (ty : Ty)
  | substTypes (src : List SymbolId) (dst : List Ty) (ty : Ty)
  | substThis (cls : SymbolId) (target ty : Ty)
  | replaceType (source target ty : Ty)
  | mapOver (f : Mapper) (ty : Ty)
  | applyTypeArgs (tycon : Ty) (args : List Ty)
  | cloneSymbols (syms : List SymbolId)
  | skolemize (ty : Ty) (level : Nat)
  | rawToExistential (ty : Ty)
  | commonOwner (types : List Ty)

instance : Movable TypeOperation where
  relabel f h
    | .normalize ty => .normalize (Movable.relabel f h ty)
    | .dealias ty => .dealias (Movable.relabel f h ty)
    | .widen ty => .widen (Movable.relabel f h ty)
    | .underlying ty => .underlying (Movable.relabel f h ty)
    | .typeSymbol ty => .typeSymbol (Movable.relabel f h ty)
    | .isStable ty => .isStable (Movable.relabel f h ty)
    | .isNotNull ty => .isNotNull (Movable.relabel f h ty)
    | .refBounds ty => .refBounds (Movable.relabel f h ty)
    | .asSeenFrom ty pre owner => .asSeenFrom (Movable.relabel f h ty)
      (Movable.relabel f h pre) (Movable.relabel f h owner)
    | .baseType ty cls => .baseType (Movable.relabel f h ty) (Movable.relabel f h cls)
    | .baseClasses s => .baseClasses (Movable.relabel f h s)
    | .baseClassesOf ty => .baseClassesOf (Movable.relabel f h ty)
    | .isSubClass s1 s2 => .isSubClass (Movable.relabel f h s1) (Movable.relabel f h s2)
    | .findMember ty name => .findMember (Movable.relabel f h ty) name
    | .memberInfo ty member => .memberInfo (Movable.relabel f h ty) (Movable.relabel f h member)
    | .memberType ty member => .memberType (Movable.relabel f h ty) (Movable.relabel f h member)
    | .substSym src dst ty => .substSym (Movable.relabel f h src)
      (Movable.relabel f h dst) (Movable.relabel f h ty)
    | .substTypes src dst ty => .substTypes (Movable.relabel f h src)
      (Movable.relabel f h dst) (Movable.relabel f h ty)
    | .substThis cls target ty => .substThis (Movable.relabel f h cls)
      (Movable.relabel f h target) (Movable.relabel f h ty)
    | .replaceType source target ty =>
      .replaceType (Movable.relabel f h source) (Movable.relabel f h target)
        (Movable.relabel f h ty)
    | .mapOver map ty => .mapOver map (Movable.relabel f h ty)
    | .applyTypeArgs tycon args => .applyTypeArgs (Movable.relabel f h tycon)
      (Movable.relabel f h args)
    | .cloneSymbols syms => .cloneSymbols (Movable.relabel f h syms)
    | .skolemize ty level => .skolemize (Movable.relabel f h ty) level
    | .rawToExistential ty => .rawToExistential (Movable.relabel f h ty)
    | .commonOwner types => .commonOwner (Movable.relabel f h types)
  relabel_id op := by cases op <;> simp [Movable.relabel_id]
  relabel_relabel f f' h h' op := by cases op <;> simp [Movable.relabel_relabel]

namespace TypeOperation

def Answer : TypeOperation → Type
  | .isStable _ | .isNotNull _ | .isSubClass .. => Bool
  | .typeSymbol _ | .commonOwner _ => SymbolId
  | .baseClasses _ | .baseClassesOf _ | .findMember .. | .cloneSymbols _ => List SymbolId
  | .refBounds _ => Ty × Ty
  | _ => Ty

def run (fuel : Nat) : (op : TypeOperation) → SymM op.Answer
  | .normalize ty => Conformance.normalize fuel ty
  | .dealias ty => Conformance.dealias fuel ty
  | .widen ty => Conformance.widen fuel ty
  | .underlying ty => Conformance.underlying fuel ty
  | .typeSymbol ty => Conformance.typeSymbol fuel ty
  | .isStable ty => Conformance.isStable fuel ty
  | .isNotNull ty => Conformance.isNotNull fuel ty
  | .refBounds ty => Conformance.refBounds fuel ty
  | .asSeenFrom ty pre owner => Conformance.asSeenFrom fuel ty pre owner
  | .baseType ty cls => Conformance.baseType fuel ty cls
  | .baseClasses s => SymM.baseClasses s
  | .baseClassesOf ty => Conformance.baseClassesOf fuel ty
  | .isSubClass s1 s2 => SymM.isSubClass s1 s2
  | .findMember ty name => Conformance.findMember fuel ty name
  | .memberInfo ty member => Conformance.memberInfo fuel ty member
  | .memberType ty member => Conformance.memberType fuel ty member
  | .substSym src dst ty => Conformance.substSym fuel src dst ty
  | .substTypes src dst ty => Conformance.substTypes fuel src dst ty
  | .substThis cls target ty => Conformance.substThis fuel cls target ty
  | .replaceType source target ty => Conformance.replaceType fuel source target ty
  | .mapOver f ty => (Rebinding.at fuel).mapOver f.map ty
  | .applyTypeArgs tycon args => Conformance.applyTypeArgs fuel tycon args
  | .cloneSymbols syms => Conformance.cloneSymbols fuel syms
  | .skolemize ty level => Conformance.skolemize fuel ty level
  | .rawToExistential ty => Conformance.rawToExistential fuel ty
  | .commonOwner types => Conformance.commonOwner fuel types

/-- The operation runs no function of the asker's own. -/
def isQuestion : TypeOperation → Bool
  | .mapOver .. => false
  | _ => true

/-- The question names only what a table of size `n` may name, apart from symbols and types that are
only compared. -/
def Within (sc : Scope) (n : Nat) : TypeOperation → Prop
  | .normalize ty | .dealias ty | .widen ty | .underlying
    ty | .typeSymbol ty | .isStable ty | .isNotNull ty
  | .refBounds ty | .baseType ty _ | .baseClassesOf
    ty | .findMember ty _ | .skolemize ty _ | .rawToExistential ty => sc.In n ty
  | .asSeenFrom ty pre owner => sc.In n ty ∧ sc.In n pre ∧ sc.In n owner
  | .baseClasses s => sc.In n s
  | .isSubClass s1 s2 => sc.In n s1 ∧ sc.In n s2
  | .memberInfo ty member | .memberType ty member => sc.In n ty ∧ sc.In n member
  | .substSym _ dst ty => sc.In n dst ∧ sc.In n ty
  | .substTypes _ dst ty => sc.In n dst ∧ sc.In n ty
  | .substThis _ target ty | .replaceType _ target ty => sc.In n target ∧ sc.In n ty
  | .mapOver .. => False
  | .applyTypeArgs tycon args => sc.In n tycon ∧ sc.In n args
  | .cloneSymbols syms => sc.In n syms
  | .commonOwner types => sc.In n types

section Walk

variable {sc : Scope} {ρ : Relabeling} {b n : Nat} {Fit : List SymbolId → List SymbolId → Prop}
  {P : PairContract SymM} {op : TypeOperation}

/-- What follows from the contracts of two runs, whatever they answer, holds of every question. -/
theorem run_walks (walk : TableWalk sc ρ b Fit P) {R : {α β : Type} → SymM α → SymM β → Prop}
    (hR : ∀ {α : Type} {_ : Movable α} {x y : SymM α} {Q : Nat → α → Prop}, P n x y Q → R x y)
    (hop : op.Within sc n) (fits : ∀ src dst ty, op = .substSym src dst ty → Fit src dst)
    (fuel : Nat) : R (op.run fuel) ((ρ.move op).run fuel) := by
  cases op with
  | normalize ty => exact hR (normalize_walks walk hop)
  | dealias ty => exact hR (dealias_walks walk hop)
  | widen ty => exact hR (widen_walks walk hop)
  | underlying ty => exact hR (underlying_walks walk hop)
  | typeSymbol ty => exact hR (typeSymbol_walks walk hop)
  | isStable ty => exact hR (isStable_walks walk hop)
  | isNotNull ty => exact hR (isNotNull_walks walk hop)
  | refBounds ty => exact hR (refBounds_walks walk hop)
  | asSeenFrom ty pre owner => exact hR (asSeenFrom_walks walk fuel hop.1 hop.2.1 hop.2.2)
  | baseType ty cls => exact hR (baseType_walks walk hop cls)
  | baseClasses s => exact hR (walk.baseClasses hop)
  | baseClassesOf ty => exact hR (baseClassesOf_walks walk hop)
  | isSubClass s1 s2 => exact hR (isSubClass_walks walk hop.1 hop.2)
  | findMember ty name => exact hR (findMember_walks walk hop name)
  | memberInfo ty member => exact hR (memberInfo_walks walk hop.1 hop.2)
  | memberType ty member => exact hR (memberType_walks walk hop.1 hop.2)
  | substSym src dst ty =>
    exact hR (substSym_walks walk fuel (fits src dst ty rfl) hop.1 n ty (Nat.le_refl _) hop.2)
  | substTypes src dst ty =>
    exact hR (substTypes_walks walk fuel src hop.1 n ty (Nat.le_refl _) hop.2)
  | substThis cls target ty =>
    exact hR (substThis_walks walk fuel cls hop.1 n ty (Nat.le_refl _) hop.2)
  | replaceType source target ty =>
    exact hR (replaceType_walks walk fuel source hop.1 n ty (Nat.le_refl _) hop.2)
  | mapOver f ty => exact hop.elim
  | applyTypeArgs tycon args =>
    exact hR (applyArgsWith_walks walk (fun src => substTypes_walks walk fuel src hop.2)
      hop.1 hop.2)
  | cloneSymbols syms => exact hR (cloneSymbols_walks walk fuel hop)
  | skolemize ty level => exact hR (skolemize_walks walk hop level)
  | rawToExistential ty => exact hR (rawToExistential_walks walk hop)
  | commonOwner types => exact hR (commonOwner_walks walk hop)

theorem run_keeping {G : SymbolTable → Prop} (hG : sc.Owns G) (fuel : Nat) (hop : op.Within sc n) :
    Keeping sc G b n (op.run fuel) fun _ _ => True :=
  run_walks (R := fun x _ => Keeping sc G b n x fun _ _ => True) (keeping_walk hG b)
    (fun h => ⟨h.safe.imp fun _ _ _ _ => trivial, h.keeps⟩) hop (fun _ _ _ _ => trivial) fuel

theorem run_safe (fuel : Nat) (hop : op.Within sc n) : Safe sc b n (op.run fuel) fun _ _ => True :=
  (run_keeping (G := fun _ => True) (fun _ _ _ => trivial) fuel hop).safe

end Walk

end TypeOperation

/-! ## Tables only grow -/

theorem SymM.OnlyBuilds.of_safe {α : Type} {x : SymM α}
    {Q : Nat → Nat → α → Prop} (h : ∀ b, Safe .all b 0 x (Q b)) : x.OnlyBuilds := by
  intro t
  refine SymbolTable.Extends.appends ?_
  have run := h t.size t (Scope.all_closed t) (Nat.le_refl _) (Nat.zero_le _)
  unfold SymM.after
  generalize x t = r at run ⊢
  cases r with
  | ok a t' => exact run.2.1
  | error e t' => exact run.2

theorem SymM.OnlyBuilds.safe {α : Type} {x : SymM α} (h : x.OnlyBuilds)
    {b n : Nat} {Q : Nat → α → Prop} (hQ : ∀ m a, Q m a) : Safe .all b n x Q := by
  intro t _ hb _
  have grown := (h t).extends.weaken hb
  unfold SymM.after at grown
  generalize x t = r at grown ⊢
  cases r with
  | ok a t' => exact ⟨Scope.all_closed t', grown, hQ _ a⟩
  | error e t' => exact ⟨Scope.all_closed t', grown⟩

theorem TypeOperation.within_all {op : TypeOperation}
    (hop : op.isQuestion = true) : op.Within .all 0 := by
  cases op with
  | mapOver => cases hop
  | normalize | dealias | widen | underlying | typeSymbol |
    isStable | isNotNull | refBounds | baseType | baseClassesOf
  | findMember | skolemize | rawToExistential => exact Scope.all_ty _
  | asSeenFrom => exact ⟨Scope.all_ty _, Scope.all_ty _, Scope.all_sym _⟩
  | baseClasses => exact Scope.all_sym _
  | isSubClass => exact ⟨Scope.all_sym _, Scope.all_sym _⟩
  | memberInfo | memberType => exact ⟨Scope.all_ty _, Scope.all_sym _⟩
  | substSym => exact ⟨Scope.all_syms _, Scope.all_ty _⟩
  | substTypes => exact ⟨Scope.all_tys _, Scope.all_ty _⟩
  | substThis | replaceType => exact ⟨Scope.all_ty _, Scope.all_ty _⟩
  | applyTypeArgs => exact ⟨Scope.all_ty _, Scope.all_tys _⟩
  | cloneSymbols => exact Scope.all_syms _
  | commonOwner => exact Scope.all_tys _

theorem TypeOperation.run_onlyBuilds (fuel : Nat) (op : TypeOperation) :
    (op.run fuel).OnlyBuilds := by
  cases hop : op.isQuestion with
  | true => exact .of_safe fun _ => op.run_safe fuel (within_all hop)
  | false =>
    cases op with
    | mapOver f ty =>
      have builds (b : Nat) : Mapping .all .same (fun n x _ Q => Safe .all b n x Q) 0 f.map f.map :=
        fun _ ty' _ _ => (f.builds ty').safe fun _ => Scope.all_ty
      have mapped (b : Nat) := mapOver_walks (safe_walk .all b)
        (rebinding_walks (safe_walk .all b) fuel) (builds b)
      exact .of_safe fun b => mapped b 0 ty (Nat.le_refl _) (Scope.all_ty ty)
    | _ => cases hop

/-! ## Queries -/

theorem Operation.within_all (n : Nat) (op : Operation) : op.Within .all n := by
  cases op with
  | freshVar =>
    exact ⟨Scope.all_ty _, Scope.all_tys _, Scope.all_tys _, fun ty _ => Scope.all_ty ty⟩
  | isSubtype | isSubtypeDepth | isSameType | isDifferentType =>
    exact ⟨Scope.all_ty _, Scope.all_ty _⟩
  | isSameTypes => exact ⟨Scope.all_tys _, Scope.all_tys _⟩
  | isWithinBounds => exact ⟨Scope.all_ty _, Scope.all_sym _, Scope.all_syms _, Scope.all_tys _⟩
  | specializesSym => exact ⟨Scope.all_ty _, Scope.all_sym _⟩
  | solve => exact Scope.all_syms _
  | lub | glb => exact Scope.all_tys _
  | instantiate => exact Scope.all_ty _
  | suspend | resume | resetStats => trivial

theorem instantiating_all : Instantiating .all (fun _ => True) fun _ _ => True where
  grow _ _ _ _ _ := trivial
  info _ _ _ := ⟨Scope.all_ty _, Scope.all_tys _, Scope.all_tys _, fun ty _ => Scope.all_ty ty⟩
  bound _ _ _ _ _ _ _ := trivial
  inst _ _ _ _ _ _ := trivial
  fresh _ _ _ _ := ⟨trivial, trivial, trivial⟩

namespace Config

variable {cfg : Config} (ha : ∀ l r, (cfg.annotations l r).OnlyBuilds)
include ha

theorem run_extends (op : Operation) (s : CheckState) :
    s.table.Extends s.table.size ((cfg.run op).after s).table := by
  cases hask : op.isQuestion with
  | true =>
    exact (run_onward instantiating_all (fun _ _ => ((ha _ _).safe fun _ _ => trivial).keeping)
      (op.within_all _) (fun _ _ => ⟨trivial, trivial⟩) hask (Scope.all_closed _) trivial).grown
  | false =>
    cases op with
    | freshVar | suspend | resume | resetStats => exact .refl _ _
    | _ => cases hask

/-- Every query and every other operation of a checker, and every operation on types, leaves the
records as they are and appends to them at most, also where it fails; and whatever a type store is
asked to store, the handles that it gave stand for what they stood for. -/
theorem operations_keep_declarations :
    (∀ (op : Operation) (s : CheckState), s.table.Appends ((cfg.run op).after s).table) ∧
    (∀ op : TypeOperation, (op.run cfg.fuel).OnlyBuilds) ∧
    (∀ (shardOf : TypeNode → Fin 32) (st : TypeStore) (builds : List TypeStore.Build) (n : Nat)
      (h : TypeHandle) (ty : Ty), st.structure? n h = some ty →
      (builds.foldl (TypeStore.build shardOf) st).structure? n h = some ty) :=
  ⟨fun op s => (run_extends ha op s).appends, TypeOperation.run_onlyBuilds cfg.fuel,
    fun shardOf st builds => (st.within_builds shardOf builds).structure?⟩

omit ha in
/-- Opening an existential on the left enters a skolem. -/
theorem opened_existential_is_appended :
    let cfg : Config := ⟨{}, .typeConstraints, 9⟩
    let s := CheckState.fresh {} ((SymM.newExistential Known.scalaClass "T").after .initial) 0 #[]
    let ty := Ty.exist [⟨Known.count⟩] (.ref .noPrefix ⟨Known.count⟩ [])
    (∀ l r, (cfg.annotations l r).OnlyBuilds) ∧ (cfg.isSubtype ty Known.anyType).answer?
    s = some true ∧
      s.table.size < ((cfg.isSubtype ty Known.anyType).after s).table.size ∧
      s.table.Appends ((cfg.isSubtype ty Known.anyType).after s).table := by
  intro cfg s ty
  have ha : ∀ l r, (cfg.annotations l r).OnlyBuilds := fun l r t => .refl t
  exact ⟨ha, by decide +kernel, by decide +kernel,
    (operations_keep_declarations ha).1 (.isSubtype ty Known.anyType) s⟩

end Config

end Conformance

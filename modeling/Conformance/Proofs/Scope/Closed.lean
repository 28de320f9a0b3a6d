import Conformance.Proofs.Scope.Basic

/-! # Types and closed tables -/

namespace Conformance

section Components

variable {sc : Scope} {n : Nat} {pre lo hi body result : Ty} {s cls : SymbolId}
  {args parents : List Ty} {ps decls : List SymbolId} {flags : MethodFlags} {v : VarId}

theorem Scope.In.this_sym (h : sc.In n (Ty.this s)) : sc.In n s := by
  cases h with
  | this hs => exact hs

theorem Scope.In.single_pre (h : sc.In n (Ty.single pre s)) : sc.In n pre := by
  cases h with
  | single hpre _ => exact hpre

theorem Scope.In.single_sym (h : sc.In n (Ty.single pre s)) : sc.In n s := by
  cases h with
  | single _ hs => exact hs

theorem Scope.In.ref_pre (h : sc.In n (Ty.ref pre s args)) : sc.In n pre := by
  cases h with
  | ref hpre _ _ => exact hpre

theorem Scope.In.ref_sym (h : sc.In n (Ty.ref pre s args)) : sc.In n s := by
  cases h with
  | ref _ hs _ => exact hs

theorem Scope.In.ref_args (h : sc.In n (Ty.ref pre s args)) : sc.In n args := by
  cases h with
  | ref _ _ hargs => exact hargs

theorem Scope.In.bounds_lo (h : sc.In n (Ty.bounds lo hi)) : sc.In n lo := by
  cases h with
  | bounds hlo _ => exact hlo

theorem Scope.In.bounds_hi (h : sc.In n (Ty.bounds lo hi)) : sc.In n hi := by
  cases h with
  | bounds _ hhi => exact hhi

theorem Scope.In.exist_quantified (h : sc.In n (Ty.exist ps body)) : sc.In n ps := by
  cases h with
  | exist hq _ => exact hq

theorem Scope.In.exist_body (h : sc.In n (Ty.exist ps body)) : sc.In n body := by
  cases h with
  | exist _ hbody => exact hbody

theorem Scope.In.poly_params (h : sc.In n (Ty.poly ps result)) : sc.In n ps := by
  cases h with
  | poly hp _ => exact hp

theorem Scope.In.poly_result (h : sc.In n (Ty.poly ps result)) : sc.In n result := by
  cases h with
  | poly _ hresult => exact hresult

theorem Scope.In.method_params (h : sc.In n (Ty.method ps result flags)) : sc.In n ps := by
  cases h with
  | method hp _ => exact hp

theorem Scope.In.method_result (h : sc.In n (Ty.method ps result flags)) : sc.In n result := by
  cases h with
  | method _ hresult => exact hresult

theorem Scope.In.nullary_result (h : sc.In n (Ty.nullary result)) : sc.In n result := by
  cases h with
  | nullary hresult => exact hresult

theorem Scope.In.notNull_body (h : sc.In n (Ty.notNull body)) : sc.In n body := by
  cases h with
  | notNull hbody => exact hbody

theorem Scope.In.wildcard_bounds (h : sc.In n (Ty.boundedWildcard body)) : sc.In n body := by
  cases h with
  | boundedWildcard hbody => exact hbody

theorem Scope.In.var_id (h : sc.In n (Ty.var v)) : sc.In n v := by
  cases h with
  | var hv => exact hv

theorem Scope.In.refined_parts (h : sc.In n (Ty.refined parents decls cls)) :
    sc.In n parents ∧ sc.In n decls ∧ sc.In n cls := by
  cases h with
  | refined hparents hdecls hcls => exact ⟨hparents, hdecls, hcls⟩

end Components

section Wrappers

variable {sc : Scope} {n : Nat} {body : Ty}

theorem Scope.In.existential {qs : List SymbolId} (hqs : sc.In n qs) (hbody : sc.In n body) :
    sc.In n (Ty.existential qs body) := by
  unfold Ty.existential
  split
  · exact hbody
  · exact .exist hqs hbody

theorem Scope.In.annotate {as : List SymbolId} (has : sc.In n as) (hbody : sc.In n body) :
    sc.In n (Ty.annotate as body) := by
  unfold Ty.annotate
  split
  · exact hbody
  · exact .annotated has hbody

theorem Scope.In.lambda {ps : List SymbolId} {result : Ty}
    (hps : sc.In n ps) (hresult : sc.In n result) : sc.In n (Ty.lambda ps result) := by
  unfold Ty.lambda
  split
  · exact hresult
  · exact .poly hps hresult

theorem Scope.In.withoutAnnotations {ty : Ty} (h : sc.In n ty) : sc.In n ty.withoutAnnotations := by
  induction ty using Ty.withoutAnnotations.induct with
  | case1 as body ih =>
    cases h with
    | annotated _ hbody => exact ih hbody
  | case2 ty hty =>
    rw [Ty.withoutAnnotations]
    · exact h
    · exact hty

end Wrappers

/-! ## What a closed table says of symbols in scope -/

namespace Scope

variable {sc : Scope} {n : Nat}

theorem in_scalaRef {s : SymbolId} (hs : s.val < Known.count) : sc.In n (Known.scalaRef s) :=
  .ref (.this (sc.known (by decide))) (sc.known hs) fun _ h => absurd h List.not_mem_nil

theorem in_javaLangRef {s : SymbolId} (hs : s.val < Known.count) : sc.In n (Known.javaLangRef s) :=
  .ref (.this (sc.known (by decide))) (sc.known hs) fun _ h => absurd h List.not_mem_nil

theorem in_anyType : sc.In n Known.anyType := in_scalaRef (by decide)

theorem in_nothingType : sc.In n Known.nothingType := in_scalaRef (by decide)

theorem in_constantType (value : Constant) : sc.In n (Known.constantType value) := by
  have known : (Known.constantClass value).val < Known.count := by
    cases value <;> exact Nat.le_of_ble_eq_true rfl
  cases value with
  | str => exact in_javaLangRef known
  | _ => exact in_scalaRef known

/-- The records of what is in scope at size `n` name only what is in scope then. -/
structure ClosedAt (sc : Scope) (n : Nat) (t : SymbolTable) : Prop where
  records {s : SymbolId} : sc.In n s → sc.Fits n (t.get s)

theorem Closed.at {t : SymbolTable} (ht : sc.Closed t) : sc.ClosedAt t.size t := ⟨ht.records⟩

theorem all_closedAt (n : Nat) (t : SymbolTable) : all.ClosedAt n t :=
  ⟨fun _ => ⟨all_sym _, all_syms _, all_ty _, all_tys _, all_syms _, fun _ => all_sym _⟩⟩

namespace ClosedAt

variable {t : SymbolTable} (ht : sc.ClosedAt n t) {s : SymbolId}
include ht

theorem info (hs : sc.In n s) : sc.In n (t.info s) := (ht.records hs).info

theorem owner (hs : sc.In n s) : sc.In n (t.owner s) := (ht.records hs).owner

theorem tparams (hs : sc.In n s) : sc.In n (t.tparams s) := (ht.records hs).tparams

theorem prefixOf (hs : sc.In n s) : sc.In n (t.prefixOf s) := by
  unfold SymbolTable.prefixOf SymbolTable.prefixFor
  split
  · exact .noPrefix
  · split
    · exact .this (ht.owner hs)
    · exact .noPrefix

theorem classType (hs : sc.In n s) {args : List Ty} (hargs : sc.In n args) :
    sc.In n (t.classType s args) := .ref (ht.prefixOf hs) hs hargs

theorem typeConstructor (hs : sc.In n s) : sc.In n (t.typeConstructor s) := ht.classType hs .nil

theorem paramRefs {ps : List SymbolId} (hps : sc.In n ps) : sc.In n (t.paramRefs ps) :=
  hps.map fun _ hp => ht.classType hp .nil

theorem typeRefOf (hs : sc.In n s) : sc.In n (t.typeRefOf s) :=
  ht.classType hs (ht.paramRefs (ht.tparams hs))

theorem boundsOf (hs : sc.In n s) : sc.In n (t.boundsOf s) := by
  have info := ht.info hs
  unfold SymbolTable.boundsOf
  split
  · rename_i lo hi h
    rw [h] at info
    cases info with
    | bounds hlo hhi => exact ⟨hlo, hhi⟩
  · exact ⟨in_nothingType, in_anyType⟩
  · exact ⟨in_nothingType, in_anyType⟩
  · exact ⟨info, info⟩

theorem paramBounds (hs : sc.In n s) : sc.In n (t.paramBounds s) :=
  .bounds (ht.boundsOf hs).1 (ht.boundsOf hs).2

theorem infos {syms : List SymbolId} (hsyms : sc.In n syms) : sc.In n (t.infos syms) :=
  (hsyms.map fun _ hs => ht.info hs).filter _

theorem children {ty : Ty} (hty : sc.In n ty) : sc.In n (t.children ty) := by
  cases hty with
  | single hpre _ => exact .cons hpre .nil
  | ref hpre _ hargs => exact .cons hpre hargs
  | refined hparents hdecls _ => exact .append hparents (ht.infos hdecls)
  | exist hq hbody => exact .append (ht.infos hq) (.cons hbody .nil)
  | annotated _ hbody => exact .cons hbody .nil
  | boundedWildcard h => exact .cons h .nil
  | bounds hlo hhi => exact .cons hlo (.cons hhi .nil)
  | method hp hresult => exact .append (ht.infos hp) (.cons hresult .nil)
  | nullary h => exact .cons h .nil
  | poly hp hresult => exact .append (ht.infos hp) (.cons hresult .nil)
  | notNull h => exact .cons h .nil
  | _ => exact .nil

theorem ownersUpTo (hs : sc.In n s) (k : Nat) : sc.In n (t.ownersUpTo k s) := by
  induction k generalizing s with
  | zero => exact .nil
  | succ k ih =>
    unfold SymbolTable.ownersUpTo
    split
    · exact .cons hs (ih (ht.owner hs))
    · exact .nil

theorem parentClass {ty : Ty} (hty : sc.In n ty) : sc.In n (t.parentClass ty) := by
  unfold SymbolTable.parentClass
  generalize Limits.aliasSteps = k
  induction k generalizing ty with
  | zero => exact sc.in_none _
  | succ k ih =>
    cases hty with
    | ref _ hs _ =>
      simp only [SymbolTable.parentClassUpTo]
      split
      · exact hs
      · split
        · exact ih (ht.info hs)
        · exact sc.in_none _
    | refined _ _ hcls => exact hcls
    | annotated _ hbody => exact ih hbody
    | _ => exact sc.in_none _

theorem declsNamed (hs : sc.In n s) (name : String) : sc.In n (t.declsNamed s name) :=
  (ht.records hs).decls.filter _

end ClosedAt

end Scope

end Conformance

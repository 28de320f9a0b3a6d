import Conformance.Proofs.Expansion

/-! # Replacing type parameters

In a type that binds nothing, and in which the parameters take no arguments, substitution puts the
types for the parameters where these stand. It enters no symbol and takes as much fuel as the type
is deep. -/

namespace Conformance

namespace Ty

/-- The type that stands for a parameter: a reference without prefix and arguments. -/
def paramType? (ps : List SymbolId) (args : List Ty) : Ty → SymbolId → List Ty → Option Ty
  | .noPrefix, s, [] => (ps.zip args).lookup s
  | _, _, _ => none

mutual
/-- `ty` with the types `args` where the parameters `ps` stand. Binders are left as they are. -/
def replace (ps : List SymbolId) (args : List Ty) : Ty → Ty
  | .single pre s => .single (pre.replace ps args) s
  | .ref pre s as => (paramType? ps args pre s as).getD
    (.ref (pre.replace ps args) s (replaceAll ps args as))
  | .refined parents decls cls => .refined (replaceAll ps args parents) decls cls
  | .annotated as body => if body.replace ps args =
    body then .annotated as body else .annotate as (body.replace ps args)
  | .boundedWildcard b => .boundedWildcard (b.replace ps args)
  | .bounds lo hi => .bounds (lo.replace ps args) (hi.replace ps args)
  | .nullary r => .nullary (r.replace ps args)
  | .notNull b => .notNull (b.replace ps args)
  | ty => ty

def replaceAll (ps : List SymbolId) (args : List Ty) : List Ty → List Ty
  | [] => []
  | ty :: tys => ty.replace ps args :: replaceAll ps args tys
end

mutual
/-- A type that binds nothing, in which the parameters `ps` take no arguments. -/
def isDirect (ps : List SymbolId) : Ty → Bool
  | .single pre _ => pre.isDirect ps
  | .ref pre s as => (pre != .noPrefix || as.isEmpty || !ps.contains s) &&
    pre.isDirect ps && areDirect ps as
  | .refined parents decls _ => decls.isEmpty && areDirect ps parents
  | .annotated _ body => body.isDirect ps
  | .boundedWildcard b => b.isDirect ps
  | .bounds lo hi => lo.isDirect ps && hi.isDirect ps
  | .nullary r => r.isDirect ps
  | .notNull b => b.isDirect ps
  | .exist .. | .method .. | .poly .. => false
  | _ => true

def areDirect (ps : List SymbolId) : List Ty → Bool
  | [] => true
  | ty :: tys => ty.isDirect ps && areDirect ps tys
end

variable {ps : List SymbolId} {args : List Ty} {ty c : Ty}

@[simp] theorem replaceAll_eq_map (tys : List Ty) :
    replaceAll ps args tys = tys.map (replace ps args) := by
  induction tys with
  | nil => rw [replaceAll]; rfl
  | cons ty tys ih => rw [replaceAll, ih, List.map_cons]

@[simp] theorem areDirect_iff {tys : List Ty} : areDirect ps tys = true ↔
    ∀ ty ∈ tys, ty.isDirect ps = true := by
  induction tys with
  | nil => simp [areDirect]
  | cons ty tys ih => simp [areDirect, ih]

theorem paramType?_of_notMem {s : SymbolId} (notParam : s ∉ ps) (pre : Ty) (as : List Ty) :
    paramType? ps args pre s as = none := by
  unfold paramType?
  split
  · exact Option.eq_none_iff_forall_ne_some.2 fun _ found =>
      notParam (List.of_mem_zip (mem_of_lookup found)).1
  · rfl

/-- Only a parameter is not replaced part by part. -/
theorem replace_eq_onParts (direct : ty.isDirect ps = true)
    (h : ∀ pre s as, ty = .ref pre s as → paramType? ps args pre s as = none) :
    ty.replace ps args = ty.onParts (replace ps args) := by
  cases ty <;> simp_all [replace, onParts, isDirect]

theorem isDirect_part (direct : ty.isDirect ps = true)
    (mem : c ∈ ty.parts) : c.isDirect ps = true := by
  cases ty <;> simp_all [parts, isDirect] <;> (obtain rfl | mem := mem <;> simp_all)

theorem binders_of_isDirect (direct : ty.isDirect ps = true) : ty.binders = [] := by
  cases ty <;> simp_all [binders, isDirect]

theorem replace_nil (ty : Ty) (h : ty.isDirect [] = true) : ty.replace [] args = ty := by
  rw [replace_eq_onParts h fun _ _ _ _ => paramType?_of_notMem List.not_mem_nil ..]
  exact onParts_eq_self fun c mem => replace_nil c (isDirect_part h mem)
termination_by sizeOf ty
decreasing_by exact sizeOf_lt_of_part mem

end Ty

/-- Substitution in a type that binds nothing, and in which the parameters take no arguments. -/
theorem substTypes_replace {ps : List SymbolId} {args : List Ty}
    {ty : Ty} (direct : ty.isDirect ps = true) {fuel : Nat} (enough : sizeOf ty < fuel)
    (t : SymbolTable) : substTypes fuel ps args ty t = .ok (ty.replace ps args) t := by
  induction fuel generalizing ty with
  | zero => exact absurd enough (Nat.not_lt_zero _)
  | succ fuel ih =>
    have rebuilt : (Rebinding.at fuel).mapOver (substTypes fuel ps args)
      ty t = .ok (ty.onParts (Ty.replace ps args)) t := by
      refine Rebinding.mapOver_run _ (fun c mem => ih (Ty.isDirect_part direct mem) ?_) ?_
      · exact Nat.lt_of_lt_of_le (Ty.sizeOf_lt_of_part mem) (Nat.le_of_lt_succ enough)
      · rw [Ty.binders_of_isDirect direct]
        nofun
    unfold substTypes
    split
    · next trivially =>
      obtain none | sentinel := Bool.or_eq_true_iff.1 trivially
      · obtain rfl := List.isEmpty_iff.1 none
        rw [Ty.replace_nil ty direct]
        rfl
      · cases ty <;> first | (simp only [Ty.replace]; rfl) | cases sentinel
    · split
      · next s as _ =>
        cases found : (ps.zip args).lookup s with
        | some a =>
          have mem : s ∈ ps := (List.of_mem_zip (mem_of_lookup found)).1
          obtain rfl : as = [] := by simp_all [Ty.isDirect]
          rw [Ty.replace, Ty.paramType?, found]
          rfl
        | none =>
          rw [Ty.replace_eq_onParts direct]
          · exact rebuilt
          · rintro _ _ _ ⟨⟩
            unfold Ty.paramType?
            split <;> first | exact found | rfl
      · next other =>
        rw [Ty.replace_eq_onParts direct]
        · exact rebuilt
        · rintro pre s as rfl
          unfold Ty.paramType?
          split <;> first | exact absurd rfl (other _ _) | rfl

end Conformance

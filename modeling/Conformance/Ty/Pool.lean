import Std.Data.HashSet.Lemmas
import Conformance.Ty.Basic

/-!
A pool stores each type once. `TyPool.share` gives back the type that it is
given, as `share_fst` says, built from parts of the pool: equal types that have
passed through one pool are stored in one place.
-/

namespace Conformance

/-- The types stored so far. -/
structure TyPool where
  types : Std.HashSet Ty := ∅
deriving Inhabited

namespace TyPool

/-- Store a new type whose components are stored. -/
def keep (p : TyPool) (ty : Ty) : Ty × TyPool := (ty, ⟨p.types.insert ty⟩)

mutual
/-- The stored copy of a type. -/
def share (p : TyPool) (ty : Ty) : Ty × TyPool :=
  match p.types.get? ty with
  | some kept => (kept, p)
  | none => match ty with
    | .single pre s =>
      let (pre, p) := p.share pre
      p.keep (.single pre s)
    | .ref pre s args =>
      let (pre, p) := p.share pre
      let (args, p) := p.shareAll args
      p.keep (.ref pre s args)
    | .refined parents decls cls =>
      let (parents, p) := p.shareAll parents
      p.keep (.refined parents decls cls)
    | .exist qs body =>
      let (body, p) := p.share body
      p.keep (.exist qs body)
    | .annotated as body =>
      let (body, p) := p.share body
      p.keep (.annotated as body)
    | .boundedWildcard b =>
      let (b, p) := p.share b
      p.keep (.boundedWildcard b)
    | .bounds lo hi =>
      let (lo, p) := p.share lo
      let (hi, p) := p.share hi
      p.keep (.bounds lo hi)
    | .method ps r flags =>
      let (r, p) := p.share r
      p.keep (.method ps r flags)
    | .nullary r =>
      let (r, p) := p.share r
      p.keep (.nullary r)
    | .poly ps r =>
      let (r, p) := p.share r
      p.keep (.poly ps r)
    | .notNull body =>
      let (body, p) := p.share body
      p.keep (.notNull body)
    | ty => p.keep ty

def shareAll (p : TyPool) : List Ty → List Ty × TyPool
  | [] => ([], p)
  | ty :: tys =>
    let (ty, p) := p.share ty
    let (tys, p) := p.shareAll tys
    (ty :: tys, p)
end

theorem eq_of_get? {p : TyPool} {ty kept : Ty} (h : p.types.get? ty = some kept) : kept = ty := by
  have := Std.HashSet.get?_beq (m := p.types) (k := ty)
  simpa [h] using this

@[simp] theorem keep_fst (p : TyPool) (ty : Ty) : (p.keep ty).1 = ty := rfl

mutual
@[simp] theorem share_fst (p : TyPool) (ty : Ty) : (p.share ty).1 = ty := by
  unfold share
  split
  · exact eq_of_get? ‹_›
  · cases ty <;> simp [share_fst, shareAll_fst]

@[simp] theorem shareAll_fst (p : TyPool) : ∀ tys : List Ty, (p.shareAll tys).1 = tys
  | [] => by simp [shareAll]
  | ty :: tys => by simp [shareAll, share_fst, shareAll_fst]
end

end TyPool

end Conformance

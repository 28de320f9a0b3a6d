import Conformance.Checker.References
import Conformance.Checker.Variables

/-!
Equivalence. Types of one shape are compared by their components. Where that
does not settle the question, wildcards, variables and annotations are handled,
then paths are followed to where they lead and aliases expanded.
-/

namespace Conformance

variable (cfg : Config) (q : Queries)

/-- A module's path against a reference to the module's class. -/
def singleMatchesModule (s : SymbolId) (pre : Ty) (cls : SymbolId) (clsPre : Ty) (args : List Ty) :
    CheckM Bool := do
  let r := (← CheckM.readTable).get cls
  if r.isModuleClass &&
    args.isEmpty then sameEntity cfg q s pre r.companion clsPre else return false

/-- Every member of the second scope has an equivalent one of its name in the
first, the two selves identified. -/
def subScope (decls1 decls2 : List SymbolId) : CheckM Bool :=
  decls2.allM fun d2 => do
    let r2 := (← CheckM.readTable).get d2
    decls1.anyM fun d1 => do
      let r1 := (← CheckM.readTable).get d1
      if r1.name != r2.name then return false
      q.same r1.info (← substThis cfg.fuel r2.owner (.this r1.owner) r2.info)

/-- Binders of one length with equivalent bounds and bodies, under the names on
the left. -/
def Renaming.sameBinders (rename : Renaming) (params1 : List SymbolId) (body1 : Ty)
    (params2 : List SymbolId) (body2 : Ty) : CheckM Bool := do
  if params1.length != params2.length then return false
  let boundsMatch ← (params1.zip params2).allM fun (p1, p2) => do
    let t ← CheckM.readTable
    q.same (t.paramBounds p1) (← rename params2 params1 (t.paramBounds p2))
  if !boundsMatch then return false
  q.same body1 (← rename params2 params1 body2)

def sameBinders := Renaming.sameBinders q (substSym cfg.fuel)

/-- Method types: implicitness, parameter types, then results. -/
def Renaming.sameMethods (rename : Renaming) (params1 : List SymbolId) (result1 : Ty)
    (flags1 : MethodFlags) (params2 : List SymbolId) (result2 : Ty) (flags2 : MethodFlags) :
    CheckM Bool := do
  if flags1.implicit != flags2.implicit then return false
  let t ← CheckM.readTable
  if !(← q.sameAll (params1.map t.info) (params2.map t.info)) then return false
  q.same result1 (← rename params2 params1 result2)

def sameMethods := Renaming.sameMethods q (substSym cfg.fuel)

/-- Only a positive answer settles the question. -/
def settledIf (x : CheckM Bool) : CheckM (Option Bool) := return if ← x then some true else none

/-- Types of one shape; `none` leaves the question to the other rules. -/
def sameShape (ty1 ty2 : Ty) : CheckM (Option Bool) :=
  match ty1, ty2 with
  | .ref pre1 s1 args1, .ref pre2 s2 args2 => do
    if !(← sameEntity cfg q s1 pre1 s2 pre2) then return none
    if args1.isEmpty && args2.isEmpty && !((← CheckM.readTable).tparams s1).isEmpty then
      return some true
    settledIf (q.sameAll args1 args2)
  | .single pre1 s1, .single pre2 s2 => settledIf (sameEntity cfg q s1 pre1 s2 pre2)
  | .single pre1 s1, .ref pre2 s2 args => settledIf (singleMatchesModule cfg q s1 pre1 s2 pre2 args)
  | .ref pre1 s1 args, .single pre2 s2 => settledIf (singleMatchesModule cfg q s2 pre2 s1 pre1 args)
  | .this s1, .this s2 => settledIf (return s1 == s2)
  | .const v1, .const v2 => return some (v1 == v2)
  | .refined parents1 decls1 _, .refined parents2 decls2 _ => do
    if !(← q.sameAll parents1 parents2) then return some false
    if !(← subScope cfg q decls1 decls2) then return some false
    return some (← subScope cfg q decls2 decls1)
  | .method params1 result1 flags1, .method params2 result2 flags2 =>
    return some (← sameMethods cfg q params1 result1 flags1 params2 result2 flags2)
  | .nullary result1, .nullary result2 => return some (← q.same result1 result2)
  | .poly tparams1 result1, .poly tparams2 result2 =>
    return some (← sameBinders cfg q tparams1 result1 tparams2 result2)
  | .exist quantified1 body1, .exist quantified2 body2 =>
    return some (← sameBinders cfg q quantified1 body1 quantified2 body2)
  | .bounds lo1 hi1, .bounds lo2 hi2 => do
    if !(← q.same lo1 lo2) then return some false
    return some (← q.same hi1 hi2)
  | .notNull body1, .notNull body2 => settledIf (q.same body1 body2)
  | _, _ => return none

/-- `lo <: ty <: hi` for the bounds of a wildcard. -/
def boundsContain (bounds ty : Ty) : CheckM Bool := do
  let (lo, hi) ← refBounds cfg.fuel bounds
  if !(← q.sub lo ty .unlimited) then return false
  q.sub ty hi .unlimited

def followPathUpTo (fuel : Nat) : Nat → Ty → SymM Ty
  | 0, ty => return ty
  | n + 1, ty => do
    let next ← dealias fuel (← underlying fuel ty)
    if next = ty || !next.isSingleton then return ty
    followPathUpTo fuel n next

/-- The last path that a path leads to. -/
def followPath (fuel : Nat) (ty : Ty) : SymM Ty := followPathUpTo fuel Limits.aliasSteps ty

/-- Raw types as existentials, others in normal form. -/
def expand (fuel : Nat) (ty : Ty) : SymM Ty := do
  if (← get).isRaw ty then rawToExistential fuel ty else normalize fuel ty

/-- Equivalence of where two paths lead, if one of them leads further. -/
def samePathEnds (ty1 ty2 : Ty) : CheckM Bool := do
  let end1 ← followPath cfg.fuel ty1
  let end2 ← followPath cfg.fuel ty2
  if end1 = ty1 && end2 = ty2 then return false
  q.same end1 end2

/-- Equivalence after expansion, if it changes a side. -/
def sameExpanded (ty1 ty2 : Ty) : CheckM Bool := do
  let norm1 ← expand cfg.fuel ty1
  let norm2 ← expand cfg.fuel ty2
  if norm1 = ty1 && norm2 = ty2 then return false
  q.same norm1 norm2

/-- The rules for types whose shapes did not settle the question. -/
def sameOtherwise (ty1 ty2 : Ty) : CheckM Bool :=
  match ty1, ty2 with
  | .boundedWildcard bounds, _ => boundsContain cfg q bounds ty2
  | _, .boundedWildcard bounds => boundsContain cfg q bounds ty1
  | .var v, _ => registerEquality q v ty2 true
  | _, .var v => registerEquality q v ty1 false
  | .annotated .., _ | _, .annotated .. => do
    if !(← annotationsConform cfg ty1 ty2) then return false
    if !(← annotationsConform cfg ty2 ty1) then return false
    q.same ty1.withoutAnnotations ty2.withoutAnnotations
  | _, _ => do
    if ty1.isSingleton && ty2.isSingleton then
      if ← samePathEnds cfg q ty1 ty2 then return true
    sameExpanded cfg q ty1 ty2

/-- A package may stand for a missing prefix. -/
def isPackagePrefix (ty : Ty) : CheckM Bool := do
  let s ← typeSymbol cfg.fuel ty
  return ((← CheckM.readTable).get s).isPackageClass

/-- One step of deciding `ty1 =:= ty2`. -/
def sameStep (ty1 ty2 : Ty) : CheckM Bool := do
  if ty1 = ty2 || ty1.isPermissive || ty2.isPermissive then return true
  if !ty1.isPresent || !ty2.isPresent then return false
  if ty1 = .noPrefix then isPackagePrefix cfg ty2
  else if ty2 = .noPrefix then isPackagePrefix cfg ty1
  else match ← sameShape cfg q ty1 ty2 with
    | some answer => return answer
    | none => sameOtherwise cfg q ty1 ty2

end Conformance

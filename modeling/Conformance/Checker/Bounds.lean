import Conformance.Checker.Basic

/-!
Least upper and greatest lower bounds. They keep maximal (minimal) elements and
fall back to a shared base type or a refined type; no existential is made up.
-/

namespace Conformance

variable (cfg : Config) (q : Queries)

/-- Elements not below another one; of equivalent ones the first. -/
def maximalElements (types : List Ty) : CheckM (List Ty) :=
  types.foldlM (fun out ty => do
    if ← out.anyM (q.sub ty · .unlimited) then return out
    let kept ← out.filterM fun m => return !(← q.sub m ty .unlimited)
    return kept ++ [ty]) []

/-- Elements not above another one; of equivalent ones the first. -/
def minimalElements (types : List Ty) : CheckM (List Ty) :=
  types.foldlM (fun out ty => do
    if ← out.anyM (q.sub · ty .unlimited) then return out
    let kept ← out.filterM fun m => return !(← q.sub ty m .unlimited)
    return kept ++ [ty]) []

/-- The distinct types that are not about `bound`. -/
def typesExcept (bound : SymbolId) (types : List Ty) : CheckM (List Ty) := do
  let kept ← types.filterM fun ty => return (← typeSymbol cfg.fuel ty) != bound
  return kept.eraseDups

/-- Greatest lower bound, `Any` of no types. -/
def glb (types : List Ty) : CheckM Ty := do
  match ← minimalElements q (← typesExcept cfg Known.any types) with
  | [] => return Known.anyType
  | [ty] => return ty
  | minimal =>
    let owner ← commonOwner cfg.fuel minimal
    let cls ← SymM.newRefinementClass owner
    SymM.refinedType cls minimal []

/-- Base types of all `types` at `cls`. -/
def baseTypesAt (cls : SymbolId) : List Ty → CheckM (Option (List Ty))
  | [] => return some []
  | ty :: rest => do
    let base ← baseType cfg.fuel ty cls
    if !base.isPresent then return none
    return (← baseTypesAt cls rest).map (base :: ·)

/-- A way to take the first type of a list. -/
abbrev TakeFirst := List Ty → CheckM (Option Ty)

def TakeFirst.plain : TakeFirst := fun types => return types.head?

section Merge

variable (first : TakeFirst) (merge : Variance → List Ty → CheckM Ty)

/-- One argument for several: merged by variance, invariant ones must agree. -/
def mergeArg (variance : Variance) (args : List Ty) : CheckM (Option Ty) :=
  match variance with
  | .invariant => do
    match ← first args with
    | none => return none
    | some head => if ← args.tail.allM (q.same head ·) then return some head else return none
  | v => return some (← merge v args)

/-- Merge the rows of arguments for the given parameters, column by column. -/
def mergeArgs : List SymbolId → List (List Ty) → CheckM (Option (List Ty))
  | [], _ => return some []
  | p :: ps, rows => do
    let variance := ((← CheckM.readTable).get p).variance
    match ← mergeArg q first merge variance (rows.filterMap List.head?) with
    | none => return none
    | some arg => return (← mergeArgs ps (rows.map List.tail)).map (arg :: ·)

/-- Arguments of a reference with `n` arguments. -/
def argsOf (n : Nat) : Ty → Option (List Ty)
  | .ref _ _ args => if args.length = n then some args else none
  | _ => none

/-- The base type at `cls` that `types` share, with merged arguments. -/
def sharedBaseTypeAt (types : List Ty) (cls : SymbolId) : CheckM (Option Ty) := do
  match ← baseTypesAt cfg cls types with
  | none => return none
  | some bases =>
    match ← first bases with
    | none => return none
    | some base =>
      let tparams := (← CheckM.readTable).tparams cls
      if tparams.isEmpty then return some base
      match base, bases.mapM (argsOf tparams.length) with
      | .ref pre s _, some rows =>
        return (← mergeArgs q first merge tparams rows).map (.ref pre s ·)
      | _, _ => return none

/-- The most derived base type that `types` share. -/
def sharedBaseTypeBy (types : List Ty) : CheckM (Option Ty) :=
  match types with
  | [] => return none
  | ty :: _ => do
    let classes ← baseClassesOf cfg.fuel (← widen cfg.fuel ty)
    let t ← CheckM.readTable
    let candidates := (classes.filter fun c => !(t.get c).isRefinementClass).take
      Limits.lubCandidates
    candidates.findSomeM? (sharedBaseTypeAt cfg q first merge types)

def sharedBaseType := sharedBaseTypeBy cfg q .plain

/-- Least upper bound, given how arguments are merged; `Nothing` of no types. -/
def lubWith (types : List Ty) : CheckM Ty := do
  match ← maximalElements q (← typesExcept cfg Known.nothing types) with
  | [] => return Known.nothingType
  | [ty] => return ty
  | maximal => return (← sharedBaseType cfg q merge maximal).getD Known.anyType

end Merge

/-- Least upper bound whose arguments nest at most `n` deep. Below that,
covariant arguments become `Any` and contravariant ones `Nothing`. -/
def lubUpTo : Nat → List Ty → CheckM Ty
  | 0, types =>
    lubWith
      cfg q (fun v _ => return if v = .covariant then Known.anyType else Known.nothingType) types
  | n + 1, types =>
    lubWith cfg q (fun v args => if v = .covariant then lubUpTo n args else glb cfg q args) types

def lub (types : List Ty) : CheckM Ty := lubUpTo cfg q Limits.lubDepth types

end Conformance

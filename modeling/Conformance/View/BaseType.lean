import Conformance.Reach
import Conformance.Subst.Basic
import Conformance.Table.Linearization

/-!
Types as seen from a prefix, and what depends on it: alias expansion, the type
a path stands for, bounds of a reference, base types. A type written in a class
is seen from a prefix by replacing the class's `this` and its type parameters,
the latter through the prefix's base type at that class. The operations take
the view as a parameter and `asSeenFrom` ties them together, one unit of fuel
for each view taken within a view.
-/

namespace Conformance

/-- A type, the prefix it is seen from, and the class it is written in. -/
abbrev View := Ty → Ty → SymbolId → SymM Ty

namespace View

variable (fuel : Nat) (see : View)

/-- Right-hand side of an alias, for a reference to it. -/
def expandAlias (pre : Ty) (s : SymbolId) (args : List Ty) : SymM Ty := do
  let r ← SymM.record s
  substTypes fuel r.tparams args (← see r.info pre r.owner)

/-- Expand an alias applied to as many arguments as it has parameters, at most
`n` times. -/
def dealias : Nat → Ty → SymM Ty
  | 0, ty => return ty
  | n + 1, ty =>
    match ty with
    | .ref pre s args => do
      let r ← SymM.record s
      if !r.isAliasType || r.tparams.length != args.length then return ty
      dealias n (← expandAlias fuel see pre s args)
    | ty => return ty

/-- One step of unwrapping: the type that a path, constant or wrapper stands for. -/
def underlying (ty : Ty) : SymM Ty :=
  match ty with
  | .this s => do
    let r ← SymM.record s
    if r.isRefinementClass && r.info.isPresent then return r.info
    return (← get).typeRefOf s
  | .single pre s => do
    let r ← SymM.record s
    match ← see r.info pre r.owner with
    | .nullary result => return result
    | info => return info
  | .const value => return Known.constantType value
  | .notNull body => return body
  | .annotated _ body => return body
  | .exist _ body => return body
  | ty => return ty

/-- Bounds of a reference to an abstract type, seen from its prefix and applied
to its arguments. -/
def refBounds (ty : Ty) : SymM (Ty × Ty) :=
  match ty with
  | .ref pre s args => do
    let r ← SymM.record s
    let (lo, hi) := (← get).boundsOf s
    let lo' ← substTypes fuel r.tparams args (← see lo pre r.owner)
    let hi' ← substTypes fuel r.tparams args (← see hi pre r.owner)
    return (lo', hi')
  | .bounds lo hi => return (lo, hi)
  | _ => return (Known.nothingType, Known.anyType)

/-- The first type present among the results of `f`. -/
def firstPresent {α : Type} (f : α → SymM Ty) : List α → SymM Ty
  | [] => return .noType
  | a :: as => do
    let ty ← f a
    if ty.isPresent then return ty
    firstPresent f as

/-- The supertype of `ty` at `cls`, `n` hops away at most; `noType` if there is none. -/
def baseTypeUpTo (cls : SymbolId) : Nat → Ty → SymM Ty
  | 0, _ => return .noType
  | n + 1, ty =>
    match ty with
    | .ref pre s args => do
      if s == cls then return ty
      let r ← SymM.record s
      if r.isClass then
        if !(← SymM.isNonBottomSubClass s cls) then return .noType
        firstPresent (fun parent => do
          let parentClass := (← get).parentClass parent
          if !parentClass.isPresent then return .noType
          if !(← SymM.isNonBottomSubClass parentClass cls) then return .noType
          let seen ← see parent pre r.owner
          let seen ← if args.length = r.tparams.length then substTypes fuel r.tparams args seen
            else pure seen
          baseTypeUpTo cls n seen) r.parents
      else if r.isAliasType then
        let expanded ← dealias fuel see Limits.aliasSteps ty
        if expanded = ty then return .noType
        baseTypeUpTo cls n expanded
      else if r.isAbstractType then
        let (_, hi) ← refBounds fuel see ty
        if hi = ty then return .noType
        baseTypeUpTo cls n hi
      else return .noType
    | .refined parents _ refinement =>
      if refinement == cls then return ty else firstPresent (baseTypeUpTo cls n) parents
    | .exist qs body => do
      let found ← baseTypeUpTo cls n body
      if !found.isPresent then return found
      let t ← get
      return .existential (qs.filter (t.mentionsSymbol found)) found
    | .this _ | .single .. | .const _ | .notNull _ | .annotated .. => do
      baseTypeUpTo cls n (← underlying see ty)
    | .bounds _ hi => baseTypeUpTo cls n hi
    | _ => return .noType

def baseType (ty : Ty) (cls : SymbolId) : SymM Ty :=
  baseTypeUpTo fuel see cls (Limits.baseTypeDepth + 1) ty

end View

/-- `ty`, written in class `owner`, as seen from `pre`. -/
def asSeenFrom : Nat → View
  | 0, _, _, _ => throw .exhausted
  | fuel + 1, ty, pre, owner => do
    if ty.isSentinel || pre == .noPrefix || !pre.isPresent then return ty
    let r ← SymM.record owner
    if !r.isClass || r.isPackageClass || pre == .this owner then return ty
    let seen ← substThis fuel owner pre ty
    if r.tparams.isEmpty then return seen
    match ← View.baseType fuel (asSeenFrom fuel) pre owner with
    | .ref _ _ args => substTypes fuel r.tparams args seen
    | _ => return seen

/-- Expand aliases. -/
def dealias (fuel : Nat) (ty : Ty) : SymM Ty :=
  View.dealias fuel (asSeenFrom fuel) Limits.aliasSteps ty

/-- The type that a path, constant or wrapper stands for. -/
def underlying (fuel : Nat) (ty : Ty) : SymM Ty := View.underlying (asSeenFrom fuel) ty

def refBounds (fuel : Nat) (ty : Ty) : SymM (Ty × Ty) := View.refBounds fuel (asSeenFrom fuel) ty

def lowerBound (fuel : Nat) (ty : Ty) : SymM Ty := return (← refBounds fuel ty).1

def upperBound (fuel : Nat) (ty : Ty) : SymM Ty := return (← refBounds fuel ty).2

/-- The supertype of `ty` at `cls`, or `noType`. -/
def baseType (fuel : Nat) (ty : Ty) (cls : SymbolId) : SymM Ty :=
  View.baseType fuel (asSeenFrom fuel) ty cls

end Conformance

import Conformance.View.BaseType

/-!
Normal forms: aliases expanded and unapplied constructors written as type
lambdas; paths widened; the symbol that a type is about. Each walk takes at
most `Limits.aliasSteps` steps.
-/

namespace Conformance

def normalizeUpTo (fuel : Nat) : Nat → Ty → SymM Ty
  | 0, ty => return ty
  | n + 1, ty =>
    match ty with
    | .ref pre s args => do
      let r ← SymM.record s
      if r.isAliasType then
        if r.tparams.isEmpty || r.tparams.length == args.length then
          normalizeUpTo fuel n (← View.expandAlias fuel (asSeenFrom fuel) pre s args)
        else if args.isEmpty then
          return .lambda r.tparams (← asSeenFrom fuel r.info pre r.owner)
        else return ty
      else if !r.tparams.isEmpty && args.isEmpty && !(← get).isRaw ty then
        return .lambda r.tparams (.ref pre s ((← get).paramRefs r.tparams))
      else return ty
    | ty => return ty

/-- Expand aliases; write a constructor without arguments as a type lambda. -/
def normalize (fuel : Nat) (ty : Ty) : SymM Ty := normalizeUpTo fuel Limits.aliasSteps ty

def widenUpTo (fuel : Nat) : Nat → Ty → SymM Ty
  | 0, ty => return ty
  | n + 1, ty => do
    if !ty.isSingleton then return ty
    widenUpTo fuel n (← underlying fuel ty)

/-- Replace paths and constants by the types they stand for. -/
def widen (fuel : Nat) (ty : Ty) : SymM Ty := widenUpTo fuel Limits.aliasSteps ty

def typeSymbolUpTo (fuel : Nat) : Nat → Ty → SymM SymbolId
  | 0, _ => return .none
  | n + 1, ty =>
    match ty with
    | .ref _ s _ => do
      if (← SymM.record s).isAliasType then
        let expanded ← normalize fuel ty
        if expanded = ty then return s
        typeSymbolUpTo fuel n expanded
      else return s
    | .refined _ _ cls => return cls
    | .this s => return s
    | .single .. | .const _ => do typeSymbolUpTo fuel n (← underlying fuel ty)
    | .exist _ body | .annotated _ body | .notNull body => typeSymbolUpTo fuel n body
    | .nullary result | .poly _ result => typeSymbolUpTo fuel n result
    | _ => return .none

/-- The class or type member that a type is about. -/
def typeSymbol (fuel : Nat) (ty : Ty) : SymM SymbolId := typeSymbolUpTo fuel Limits.aliasSteps ty

/-- A type denotes a single value. -/
def isStable : Nat → Ty → SymM Bool
  | 0, _ => throw .exhausted
  | fuel + 1, ty =>
    match ty with
    | .this _ | .single .. | .const _ => return true
    | .ref _ s _ => do
      if s == Known.nothing || s == Known.singleton then return true
      let r ← SymM.record s
      if r.isAliasType then
        let expanded ← normalize fuel ty
        if expanded = ty then return false
        isStable fuel expanded
      else if r.isAbstractType then
        let hi ← typeSymbol fuel (← upperBound fuel ty)
        if !hi.isPresent then return false
        SymM.isNonBottomSubClass hi Known.singleton
      else return false
    | .notNull body | .annotated _ body => isStable fuel body
    | _ => return false

/-- A type is known to exclude null. -/
def isNotNull : Nat → Ty → SymM Bool
  | 0, _ => throw .exhausted
  | fuel + 1, ty =>
    match ty with
    | .this _ | .notNull _ => return true
    | .const value => return value != .null
    | .single _ s => do
      if ((← get).flags s).has .module then return true
      isNotNull fuel (← underlying fuel ty)
    | .ref _ s _ => do
      let r ← SymM.record s
      if r.isModuleClass || s == Known.nothing then return true
      else if r.isClass then
        if ← SymM.isNonBottomSubClass s Known.anyVal then return true
        SymM.isNonBottomSubClass s Known.notNull
      else if r.isAliasType then
        let expanded ← normalize fuel ty
        if expanded = ty then return false
        isNotNull fuel expanded
      else if r.isAbstractType then
        let hi ← upperBound fuel ty
        if hi = ty then return false
        isNotNull fuel hi
      else return false
    | .refined parents _ _ => parents.anyM (isNotNull fuel)
    | .annotated _ body | .exist _ body => isNotNull fuel body
    | _ => return false

end Conformance

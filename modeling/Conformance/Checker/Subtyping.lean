import Conformance.Checker.Equivalence
import Conformance.Checker.Structure

/-!
Conformance as an ordered cascade, the first matching case decides:
shortcuts; paths and constants; type constructors; then in turn a pass on the
right (references, annotations, wildcards, variables), one on the left
(annotations, wildcards, variables, existentials), one on the right
(references, refinements, existentials, methods, bounds) and one on the left
(bottom types, raw and module classes, abstract types, refinements, paths).
-/

namespace Conformance

variable (cfg : Config) (q : Queries)

/-- `Null` against the type on the right. -/
def nullConforms (ty1 ty2 : Ty) (depth : Depth) : CheckM Bool :=
  match ty2 with
  | .ref _ s _ => SymM.containsNull s
  | .this _ | .single .. => do
    let widened ← widen cfg.fuel ty2
    if widened = ty2 then return false
    q.sub ty1 widened depth
  | _ => return false

/-- Last pass on the left, for a reference. -/
def leftRef (pre1 : Ty) (s1 : SymbolId) (args1 : List Ty) (ty2 : Ty) (depth : Depth) :
    CheckM Bool := do
  let ty1 := Ty.ref pre1 s1 args1
  if s1 == Known.nothing then return true
  if s1 == Known.null then return ← nullConforms cfg q ty1 ty2 depth
  let t ← CheckM.readTable
  let r1 := t.get s1
  if r1.isClass then
    if t.isRaw ty1 then q.sub (← rawToExistential cfg.fuel ty1) ty2 depth
    else if r1.isModuleClass then
      match ty2 with
      | .single pre2 s2 => sameEntity cfg q r1.companion pre1 s2 pre2
      | _ => return false
    else if r1.isRefinementClass && r1.info.isPresent then q.sub r1.info ty2 depth
    else return false
  else if r1.isAbstractType then
    if depth.isExhausted then return false
    let hi ← upperBound cfg.fuel ty1
    if !(← differentConstructor q ty1 hi) then return false
    q.sub hi ty2 depth.decr
  else if r1.isAliasType then
    let norm1 ← normalize cfg.fuel ty1
    let norm2 ← normalize cfg.fuel ty2
    if norm1 = ty1 && norm2 = ty2 then return false
    q.sub norm1 norm2 depth
  else return false

/-- Last pass on the left. -/
def finalPass (ty1 ty2 : Ty) (depth : Depth) : CheckM Bool :=
  match ty1 with
  | .ref pre1 s1 args1 => leftRef cfg q pre1 s1 args1 ty2 depth
  | .refined parents _ _ => parents.anyM (q.sub · ty2 depth)
  | .this _ | .single .. | .const _ | .notNull _ => do
    if depth.isExhausted then return false
    let wider ← underlying cfg.fuel ty1
    if wider = ty1 then return false
    q.sub wider ty2 depth.decr
  | _ => return false

/-- Second pass on the right, for a reference. -/
def rightRef (ty1 : Ty) (pre2 : Ty) (s2 : SymbolId) (args2 : List Ty) (depth : Depth) :
    CheckM Bool := do
  let ty2 := Ty.ref pre2 s2 args2
  let t ← CheckM.readTable
  let r2 := t.get s2
  if s2 == Known.notNull then isNotNull cfg.fuel ty1
  else if s2 == Known.singleton then
    if ← isStable cfg.fuel ty1 then return true
    finalPass cfg q ty1 ty2 depth
  else if r2.isClass then
    if t.isRaw ty2 then q.sub ty1 (← rawToExistential cfg.fuel ty2) depth
    else if r2.isRefinementClass && r2.info.isPresent then q.sub ty1 r2.info depth
    else finalPass cfg q ty1 ty2 depth
  else if r2.isAbstractType then
    let lo ← lowerBound cfg.fuel ty2
    if ← differentConstructor q ty2 lo then
      if ← q.sub ty1 lo depth then return true
    finalPass cfg q ty1 ty2 depth
  else if r2.isAliasType then
    let norm1 ← normalize cfg.fuel ty1
    let norm2 ← normalize cfg.fuel ty2
    if norm1 = ty1 && norm2 = ty2 then finalPass cfg q ty1 ty2 depth
    else q.sub norm1 norm2 depth
  else finalPass cfg q ty1 ty2 depth

/-- Second pass on the right. -/
def rightPass (ty1 ty2 : Ty) (depth : Depth) : CheckM Bool :=
  match ty2 with
  | .ref pre2 s2 args2 => rightRef cfg q ty1 pre2 s2 args2 depth
  | .refined parents decls _ => conformsToRefinement cfg q ty1 parents decls depth
  | .exist quantified body => do
    if ← conformsToExistential cfg q ty1 quantified body depth then return true
    finalPass cfg q ty1 ty2 depth
  | .notNull body => do
    if !(← isNotNull cfg.fuel ty1) then return false
    q.sub ty1 body depth
  | .method params2 result2 flags2 =>
    match ty1 with
    | .method params1 result1 flags1 =>
      methodConforms cfg q params1 result1 flags1 params2 result2 flags2 depth
    | _ => return false
  | .nullary result2 =>
    match ty1 with
    | .nullary result1 => q.sub result1 result2 depth
    | _ => return false
  | .bounds lo2 hi2 =>
    match ty1 with
    | .bounds lo1 hi1 => do
      if !(← q.sub lo2 lo1 depth) then return false
      q.sub hi1 hi2 depth
    | _ => return false
  | _ => finalPass cfg q ty1 ty2 depth

/-- Conformance of annotated types: bare types, then annotations. -/
def annotatedConforms (ty1 ty2 : Ty) (depth : Depth) : CheckM Bool := do
  if !(← q.sub ty1.withoutAnnotations ty2.withoutAnnotations depth) then return false
  annotationsConform cfg ty1 ty2

/-- First pass on the left. -/
def leftPass (ty1 ty2 : Ty) (depth : Depth) : CheckM Bool :=
  match ty1 with
  | .annotated .. => annotatedConforms cfg q ty1 ty2 depth
  | .boundedWildcard bounds => do q.sub (← lowerBound cfg.fuel bounds) ty2 depth
  | .var v => registerBound cfg q .upper v ty2
  | .exist .. =>
    CheckM.atDeeperLevel fun level => do q.sub (← skolemize cfg.fuel ty1 level) ty2 depth
  | _ => rightPass cfg q ty1 ty2 depth

/-- Two references: by their constructors, then by the base type of the left. -/
def refsConform (pre1 : Ty) (s1 : SymbolId) (args1 : List Ty) (pre2 : Ty) (s2 : SymbolId)
    (args2 : List Ty) (depth : Depth) : CheckM Bool := do
  let ty1 := Ty.ref pre1 s1 args1
  let ty2 := Ty.ref pre2 s2 args2
  let t ← CheckM.readTable
  if ← constructorConforms cfg q pre1 s1 pre2 s2 depth then
    if ← argsConform q depth args1 args2 (t.tparams s1) then return true
  if (t.get s2).isClass && !depth.isExhausted then
    let base ← baseType cfg.fuel ty1 s2
    if base != ty1 && base.isPresent then
      if ← q.sub base ty2 depth.decr then return true
  rightRef cfg q ty1 pre2 s2 args2 depth

/-- First pass on the right. -/
def firstPass (ty1 ty2 : Ty) (depth : Depth) : CheckM Bool :=
  match ty2 with
  | .ref pre2 s2 args2 =>
    match ty1 with
    | .ref pre1 s1 args1 => refsConform cfg q pre1 s1 args1 pre2 s2 args2 depth
    | _ => leftPass cfg q ty1 ty2 depth
  | .annotated .. => annotatedConforms cfg q ty1 ty2 depth
  | .boundedWildcard bounds => do q.sub ty1 (← upperBound cfg.fuel bounds) depth
  | .var v =>
    match ty1 with
    | .annotated .. | .boundedWildcard _ => leftPass cfg q ty1 ty2 depth
    | _ => registerBound cfg q .lower v ty1
  | _ => leftPass cfg q ty1 ty2 depth

/-- One step of deciding `ty1 <: ty2`. -/
def subStep (ty1 ty2 : Ty) (depth : Depth) : CheckM Bool := do
  if ty1 = ty2 || ty1.isPermissive || ty2.isPermissive then return true
  if !ty1.isPresent || !ty2.isPresent then return false
  if ty1 = .noPrefix then return ← isPackagePrefix cfg ty2
  if ty2 = .noPrefix then return ← isPackagePrefix cfg ty1
  if ty1.isSingletonRef && ty2.isSingletonRef || ty1.isConstant && ty2.isConstant then
    return ← q.same ty1 ty2
  let t ← CheckM.readTable
  if t.isHigherKinded ty1 || t.isHigherKinded ty2 then constructorsConform cfg q ty1 ty2 depth
  else firstPass cfg q ty1 ty2 depth

end Conformance

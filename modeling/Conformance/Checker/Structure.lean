import Conformance.Checker.Solve

/-!
Refinements, existentials on the right, method signatures and type
constructors. A refined type on the right asks for each of its parents and
members; an existential holds if some instantiation of its quantifiers does.
-/

namespace Conformance

variable (cfg : Config) (q : Queries)

/-- Does the member `s1` of `ty` match the refinement member `s2` at least as precisely? -/
def specializesMember (ty : Ty) (s1 s2 : SymbolId) (depth : Depth) : CheckM Bool := do
  let t ← CheckM.readTable
  let r1 := t.get s1
  let r2 := t.get s2
  let info2 ← substThis cfg.fuel r2.owner ty r2.info
  if r2.isTerm then
    let info1 ← memberInfo cfg.fuel ty s1
    if !r1.isTerm then return false
    if !(← q.sub info1 info2 depth) then return false
    return !r2.flags.has .stable || r1.flags.has .stable
  else if r2.isAbstractType then
    if !r1.isType then return false
    let member ← memberType cfg.fuel ty s1
    let t ← CheckM.readTable
    let (lo, hi) := match info2 with
      | .bounds lo hi => (lo, hi)
      | _ => t.boundsOf s2
    if !(← q.sub lo member depth) then return false
    q.sub member hi depth
  else if r2.isAliasType then
    if !r1.isType then return false
    q.same (← memberType cfg.fuel ty s1) info2
  else return false

/-- Does `ty` have a member that matches the refinement member `s`? -/
def specializes (ty : Ty) (s : SymbolId) (depth : Depth) : CheckM Bool := do
  let tsym ← typeSymbol cfg.fuel ty
  if tsym == Known.nothing then return true
  let t ← CheckM.readTable
  if tsym == Known.null then
    if ← SymM.containsNull (t.owner s) then return true
  let alternatives ← findMember cfg.fuel ty (t.name s)
  alternatives.anyM fun m => if m == s then return true else specializesMember cfg q ty m s depth

/-- `ty` conforms to all parents and has all members. -/
def conformsToRefinement (ty : Ty) (parents : List Ty) (decls : List SymbolId) (depth : Depth) :
    CheckM Bool := do
  if !(← parents.allM (q.sub ty · depth)) then return false
  decls.allM (specializes cfg q ty · depth)

/-- Replace the quantifiers by variables, compare with the body, then solve the
variables within the quantifiers' bounds. -/
def Renaming.conformsToExistential (rename : Renaming) (ty : Ty) (quantified : List SymbolId)
    (body : Ty) (depth : Depth) : CheckM Bool := do
  let fresh ← rename.cloneSymbols quantified
  let tvars ← fresh.mapM fun s => do
    CheckM.freshVar ((← CheckM.readTable).typeConstructor s) {}
  let body ← rename quantified fresh body
  let body ← substTypes cfg.fuel fresh tvars body
  if !(← q.sub ty body depth) then return false
  match ← (solve cfg q tvars fresh (fresh.map fun _ => .invariant) false depth).run with
  | .ok insts => withinBounds cfg q .noPrefix .none fresh insts
  | .error _ => return false

def conformsToExistential := Renaming.conformsToExistential cfg q (substSym cfg.fuel)

/-- Parameter types are equivalent, except that `Object` in a Java method
matches `Any`. -/
def matchingParams (params1 params2 : List SymbolId) (java1 java2 : Bool) : CheckM Bool :=
  (params1.zip params2).allM fun (p1, p2) => do
    let t ← CheckM.readTable
    let s1 ← typeSymbol cfg.fuel (t.info p1)
    let s2 ← typeSymbol cfg.fuel (t.info p2)
    if ← q.same (t.info p1) (t.info p2) then return true
    return java1 && s2 == Known.object && s1 == Known.any ||
      java2 && s1 == Known.object && s2 == Known.any

/-- Method types of one arity: matching parameters, then the results under one
naming of the parameters. -/
def Renaming.methodConforms (rename : Renaming) (params1 : List SymbolId) (result1 : Ty)
    (flags1 : MethodFlags) (params2 : List SymbolId) (result2 : Ty) (flags2 : MethodFlags)
    (depth : Depth) : CheckM Bool := do
  if params1.length != params2.length || flags1.implicit != flags2.implicit then return false
  if !(← matchingParams cfg q params1 params2 flags1.java flags2.java) then return false
  q.sub (← rename params1 params2 result1) result2 depth

def methodConforms := Renaming.methodConforms cfg q (substSym cfg.fuel)

/-- A parameter may stand for an invariant one or one of its own variance. -/
def SymbolTable.variancesConform (t : SymbolTable) (tparams1 tparams2 : List SymbolId) : Bool :=
  (tparams1.zip tparams2).all fun (p1, p2) =>
    (t.get p2).variance == .invariant || (t.get p1).variance == (t.get p2).variance

/-- Type lambdas under the naming `names` of their parameters: bounds
contravariantly, then the results. A side whose parameters are the names is
left as it is. -/
def Renaming.lambdaConforms (rename : Renaming) (names tparams1 : List SymbolId) (result1 : Ty)
    (tparams2 : List SymbolId) (result2 : Ty) (renameLeft : Bool)
    (depth : Depth) : CheckM Bool := do
  let left := fun (ty : Ty) => if renameLeft then rename tparams1 names ty else return ty
  let boundsConform ← (tparams1.zip tparams2).allM fun (p1, p2) => do
    let bounds2 ← rename tparams2 names ((← CheckM.readTable).paramBounds p2)
    let bounds1 ← left ((← CheckM.readTable).paramBounds p1)
    q.sub bounds2 bounds1 depth
  if !boundsConform then return false
  let result1 ← left result1
  let result2 ← rename tparams2 names result2
  q.sub result1 result2 depth

def lambdaConforms := Renaming.lambdaConforms q (substSym cfg.fuel)

/-- Conformance of type constructors, both written as type lambdas. -/
def Renaming.constructorsConform (rename : Renaming)
    (ty1 ty2 : Ty) (depth : Depth) : CheckM Bool := do
  if (← typeSymbol cfg.fuel ty1) == Known.nothing then return true
  if (← typeSymbol cfg.fuel ty2) == Known.any then return true
  let norm1 ← normalize cfg.fuel ty1
  let norm2 ← normalize cfg.fuel ty2
  match norm1.withoutAnnotations, norm2.withoutAnnotations with
  | .poly tparams1 result1, .poly tparams2 result2 =>
    if tparams1.length != tparams2.length then return false
    let t ← CheckM.readTable
    if cfg.policy.checkVariance && !t.variancesConform tparams1 tparams2 then return false
    let ownedByMethod := match tparams1 with
      | p :: _ => t.kind (t.owner p) == .method
      | [] => false
    let names ← if ownedByMethod then pure tparams1 else rename.cloneSymbols tparams1
    if !(← rename.lambdaConforms q names tparams1 result1
      tparams2 result2 (!ownedByMethod) depth) then
      return false
    annotationsConform cfg norm1 norm2
  | _, _ => return false

def constructorsConform := Renaming.constructorsConform cfg q (substSym cfg.fuel)

end Conformance

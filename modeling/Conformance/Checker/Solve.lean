import Conformance.Checker.Bounds
import Conformance.Checker.Variables

/-!
Solving a group of variables that stand for type parameters. A variable takes
the greatest lower bound of its upper bounds or the least upper bound of its
lower bounds, by the direction asked for and the variance of its parameter.
Declared bounds are added first, and parameters whose bounds mention one
another are solved in that order.
-/

namespace Conformance

/-- Why a group has no solution. -/
inductive SolveError (τ : Type) where
  | unknownVar (v : VarId)
  | notAVar (ty : τ)
  | boundsViolation (v : VarId) (inst : τ)
  | occursCheck (v : VarId) (inst : τ)
  | arityMismatch (expected found : Nat)
deriving DecidableEq, Repr

def SolveError.message {τ : Type} (text : τ → String) : SolveError τ → String
  | .unknownVar v => "unknown type variable ?" ++ toString v.val
  | .notAVar ty => "type " ++ text ty ++ " is not a type variable"
  | .boundsViolation v inst =>
    "instantiation " ++ text inst ++ " of ?" ++ toString v.val ++ " is not within its bounds"
  | .occursCheck v inst =>
    "type variable ?" ++ toString v.val ++ " occurs in its instantiation " ++ text inst
  | .arityMismatch expected found =>
    "expected " ++ toString expected ++ " type parameters, found " ++ toString found

abbrev SolveM := ExceptT (SolveError Ty) CheckM

/-- A variable of a group, its parameter and the parameter's variance. -/
structure Unknown where
  var : VarId
  tparam : SymbolId
  variance : Variance
deriving DecidableEq, Repr, Inhabited

inductive Progress where
  | unsolved
  | inProgress
  | done
deriving DecidableEq, Repr, Inhabited

/-- The variables solved together; `upper` asks for large solutions. -/
structure SolveGroup where
  unknowns : List Unknown
  upper : Bool
deriving Repr, Inhabited

namespace SolveGroup

def tparams (g : SolveGroup) : List SymbolId := g.unknowns.map (·.tparam)

def tvars (g : SolveGroup) : List Ty := g.unknowns.map fun u => .var u.var

/-- Solve for the greatest type, from the upper bounds. -/
def upwards (g : SolveGroup) (u : Unknown) : Bool := g.upper != (u.variance == .contravariant)

end SolveGroup

variable (cfg : Config) (q : Queries)

/-- The declared bound of `u` towards its solution. -/
def boundTowards (t : SymbolTable) (up : Bool) (p : SymbolId) : Ty :=
  if up then (t.boundsOf p).2 else (t.boundsOf p).1

/-- The declared bound of `p` that another parameter may be. -/
def boundAgainst (t : SymbolTable) (up : Bool) (p : SymbolId) : Ty :=
  if up then (t.boundsOf p).1 else (t.boundsOf p).2

/-- Must `other` be solved before the parameter `param` with the given bound? -/
def dependsOn (up : Bool) (param bound : Ty) (other : SymbolId) : CheckM Bool := do
  let t ← CheckM.readTable
  if t.mentionsSymbol bound other then return true
  q.same (boundAgainst t up other) param

/-- How solving reads the lists that it goes through side by side, and keeps its
progress. -/
structure Lanes (ι : Type) where
  positions : List ι
  var : ι → CheckM VarId
  tvar : ι → CheckM Ty
  tparam : ι → CheckM SymbolId
  variance : ι → CheckM Variance
  state : List Progress → ι → CheckM (Option Progress)
  mark : List Progress → ι → Progress → CheckM (List Progress)

/-- Each variable of the group, with its place. -/
def SolveGroup.lanes (g : SolveGroup) : Lanes (Unknown × Nat) where
  positions := g.unknowns.zipIdx
  var u := return u.1.var
  tvar u := return .var u.1.var
  tparam u := return u.1.tparam
  variance u := return u.1.variance
  state progress u := return progress[u.2]?
  mark progress u state := return progress.set u.2 state

/-- Add the declared bounds of `u` to its constraint: its own one, and the
variables whose parameters are bounded by its parameter. -/
def Lanes.addDeclaredBounds {ι : Type} (l : Lanes ι) (g : SolveGroup) (u : Unknown) (bound : Ty) :
    CheckM Unit := do
  let up := g.upwards u
  let side := if up then Side.upper else Side.lower
  let instantiated ← substTypes cfg.fuel g.tparams g.tvars bound
  let s ← typeSymbol cfg.fuel bound
  let informative := if up then s != Known.any else s != Known.nothing && s != u.tparam
  CheckM.updateVar u.var fun info => if informative then info.addBound side instantiated else info
  l.positions.forM fun j => do
    let other ← l.tparam j
    if other == u.tparam then return
    let facing := boundAgainst (← CheckM.readTable) up other
    if (← typeSymbol cfg.fuel (← dealias cfg.fuel facing)) == u.tparam then
      let tvar ← l.tvar j
      CheckM.updateVar u.var (VarInfo.addBound side tvar)

def addDeclaredBounds (g : SolveGroup) := g.lanes.addDeclaredBounds cfg g

/-- The solution that the constraint of `u` gives. -/
def chooseInst (g : SolveGroup) (depth : Depth) (u : Unknown) : SolveM Ty := do
  match ← CheckM.varInfo? u.var with
  | none => throw (.unknownVar u.var)
  | some info =>
    let inst ← if g.upwards u then glb cfg q info.constraint.hi
      else lubUpTo cfg q (min ((depth.remaining?).getD Limits.lubDepth)
      Limits.lubDepth) info.constraint.lo
    let inst ← instantiate cfg inst
    if (← CheckM.readTable).mentionsVar inst u.var then throw (.occursCheck u.var inst)
    return inst

/-- Solve the variable at `i` after those it depends on. At most `n` are unsolved. -/
def Lanes.solveOne {ι : Type} (l : Lanes ι) (g : SolveGroup) (depth : Depth) :
    Nat → List Progress → ι → SolveM (List Progress)
  | 0, progress, _ => return progress
  | n + 1, progress, i => do
    if (← l.state progress i) != some .unsolved then return progress
    let var ← l.var i
    if ((← CheckM.varInfo? var).bind (·.constraint.inst)).isSome then
      return ← l.mark progress i .done
    let tparam ← l.tparam i
    let variance ← l.variance i
    let u : Unknown := { var, tparam, variance }
    let up := g.upwards u
    let begun ← l.mark progress i .inProgress
    let t ← CheckM.readTable
    let bound := boundTowards t up tparam
    let param := t.typeConstructor tparam
    let (progress, cyclic) ← l.positions.foldlM (fun (progress, cyclic) j => do
      let other ← l.tparam j
      if other == tparam then return (progress, cyclic)
      if !(← dependsOn q up param bound other) then return (progress, cyclic)
      let state ← l.state progress j
      return (← l.solveOne g depth n progress j, cyclic || state == some .inProgress))
      (begun, t.mentionsSymbol bound tparam)
    if !cyclic then l.addDeclaredBounds cfg g u bound
    let inst ← chooseInst cfg q g depth u
    CheckM.updateVar var fun info => { info with constraint := info.constraint.setInst inst }
    return ← l.mark progress i .done

/-- Solve `u`, the `i`-th of the group. -/
def solveOne (g : SolveGroup) := g.lanes.solveOne cfg q g

/-- The instantiation of a variable, checked against its bounds. -/
def checkedInst (v : VarId) : SolveM Ty := do
  match ← CheckM.varInfo? v with
  | none => throw (.unknownVar v)
  | some info =>
    match info.constraint.inst with
    | none => throw (.unknownVar v)
    | some inst =>
      let inst ← instantiate cfg inst
      let los ← info.constraint.lo.mapM fun lo => (instantiate cfg lo : CheckM Ty)
      let his ← info.constraint.hi.mapM fun hi => (instantiate cfg hi : CheckM Ty)
      if !(← (los.allM (q.sub · inst .unlimited) : CheckM Bool)) then
        throw (.boundsViolation v inst)
      if !(← (his.allM (q.sub inst · .unlimited) : CheckM Bool)) then
        throw (.boundsViolation v inst)
      return inst

/-- The variables that the types are. -/
def knownVars (vars : VarLog Ty) : List Ty → Except (SolveError Ty) (List VarId)
  | [] => .ok []
  | .var v :: rest => if vars.contains v then (knownVars vars rest).map
    (v :: ·) else .error (.unknownVar v)
  | ty :: _ => .error (.notAVar ty)

/-- Instantiate the variables `tvars`, which stand for `tparams`. -/
def solveAlong {ι : Type} (lanes : List VarId → SolveGroup → Lanes ι) (tvars : List Ty)
    (tparams : List SymbolId) (variances : List Variance) (upper : Bool) (depth : Depth) :
    SolveM (List Ty) := do
  if tparams.length != tvars.length then throw (.arityMismatch tvars.length tparams.length)
  if variances.length != tvars.length then throw (.arityMismatch tvars.length variances.length)
  let vars ← ExceptT.mk (return knownVars (← get).vars tvars)
  let unknowns := (vars.zip (tparams.zip variances)).map fun (var, tparam, variance) =>
    { var, tparam, variance }
  let g : SolveGroup := { unknowns, upper }
  let l := lanes vars g
  let _ ← l.positions.foldlM (l.solveOne cfg q g depth unknowns.length)
    (unknowns.map fun _ => .unsolved)
  vars.mapM (checkedInst cfg q)

def solve := solveAlong cfg q fun _ => SolveGroup.lanes

/-- Arguments within the bounds of parameters declared in `owner`, seen from `pre`. -/
def withinBounds (pre : Ty) (owner : SymbolId) (tparams : List SymbolId) (targs : List Ty) :
    CheckM Bool :=
  if tparams.length = targs.length then
    (tparams.zip targs).allM fun (tparam, targ) => do
      let (lo, hi) := (← CheckM.readTable).boundsOf tparam
      let adapt := fun (ty : Ty) => (do
        let seen ← if owner.isPresent then asSeenFrom cfg.fuel ty pre owner else pure ty
        substTypes cfg.fuel tparams targs seen : SymM Ty)
      let lo ← adapt lo
      let hi ← adapt hi
      if !(← q.sub lo targ .unlimited) then return false
      q.sub targ hi .unlimited
  else return false

end Conformance

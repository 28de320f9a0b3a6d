import Conformance.Checker.Basic

/-!
Type variables in queries. A variable met under conformance records the other
side as a bound, under equivalence as its instantiation. A suspended variable
stands for its origin, an instantiated one for its instantiation.
-/

namespace Conformance

variable (cfg : Config) (q : Queries)

/-- A type names no skolem made deeper than `level`. -/
def SymbolTable.isRelatable (t : SymbolTable) (level : Nat) (ty : Ty) : Bool :=
  !t.existsType ty fun
    | .ref _ s _ => (t.flags s).has .skolem && decide (level < (t.get s).level)
    | _ => false

/-- Which side of a conformance a variable's bound is on. -/
inductive Side where
  | lower
  | upper
deriving DecidableEq, Repr, Inhabited

/-- Conformance of a bound to what stands for the variable. -/
def checkAgainst (side : Side) (ty target : Ty) : CheckM Bool :=
  match side with
  | .lower => q.sub ty target .unlimited
  | .upper => q.sub target ty .unlimited

def VarInfo.addBound (side : Side) (bound : Ty) (info : VarInfo Ty) : VarInfo Ty :=
  match side with
  | .lower => { info with constraint := (info.constraint.addLo bound).2 }
  | .upper => { info with constraint := (info.constraint.addHi bound).2 }

/-- The bound that `ty` gives; `Any` and `Nothing` are written without a path to them. -/
def boundFor (ty : Ty) : CheckM Ty := do
  let s ← typeSymbol cfg.fuel ty
  if s == Known.any then return Known.anyType
  if s == Known.nothing then return Known.nothingType
  return ty

/-- `ty <: v` for a lower bound, `v <: ty` for an upper one. -/
def registerBound (side : Side) (v : VarId) (ty : Ty) : CheckM Bool := do
  match ← CheckM.varInfo? v with
  | none => return false
  | some info =>
    if info.suspended then checkAgainst q side ty info.origin
    else match info.constraint.inst with
      | some inst => checkAgainst q side ty inst
      | none =>
        if !(← CheckM.readTable).isRelatable info.level ty then return false
        let bound ← boundFor cfg ty
        CheckM.updateVar v (VarInfo.addBound side bound)
        return true

/-- `v =:= ty`, with the variable on the left or on the right. -/
def registerEquality (v : VarId) (ty : Ty) (onLeft : Bool) : CheckM Bool := do
  match ← CheckM.varInfo? v with
  | none => return false
  | some info =>
    if info.suspended then q.same ty info.origin
    else match info.constraint.inst with
      | some inst => if onLeft then q.same inst ty else q.same ty inst
      | none =>
        if !(← CheckM.readTable).isRelatable info.level ty then return false
        if !(← info.constraint.lo.allM (q.sub · ty .unlimited)) then return false
        if !(← info.constraint.hi.allM (q.sub ty · .unlimited)) then return false
        CheckM.updateVar v fun info => { info with constraint := info.constraint.setInst ty }
        return true

/-- Replace instantiated variables by their instantiations. -/
def instantiate (ty : Ty) : CheckM Ty := do
  let vars := (← get).vars
  instantiateWith (fun v => (vars.info? v).bind (·.constraint.inst)) cfg.fuel [] ty

end Conformance

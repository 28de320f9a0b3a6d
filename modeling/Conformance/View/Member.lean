import Conformance.View.Normal

/-!
Members of a type. They are looked for in the linearization of its class; a
refined type comes before its parents.
-/

namespace Conformance

/-- Append what is not there yet. -/
def addNew (out new : List SymbolId) : List SymbolId :=
  new.foldl (fun out s => if out.contains s then out else out ++ [s]) out

/-- Classes whose members a type has, most derived first. -/
def baseClassesOf : Nat → Ty → SymM (List SymbolId)
  | 0, _ => throw .exhausted
  | fuel + 1, ty =>
    match ty with
    | .refined parents _ cls =>
      parents.foldlM (fun out parent => return addNew out (← baseClassesOf fuel parent)) [cls]
    | ty => do
      let s ← typeSymbol fuel ty
      let r ← SymM.record s
      if r.isClass then SymM.baseClasses s
      else if r.isAbstractType then
        let hi ← upperBound fuel (← widen fuel ty)
        if hi = ty then return []
        baseClassesOf fuel hi
      else return []

def memberOwners (fuel : Nat) (ty : Ty) : SymM (List SymbolId) :=
  match ty with
  | .refined .. => baseClassesOf fuel ty
  | .exist _ body | .annotated _ body | .notNull body => memberOwners fuel body
  | ty => do baseClassesOf fuel (← widen fuel ty)

/-- A member found earlier hides one of the same sort, overloaded methods apart. -/
def SymbolTable.hides (t : SymbolTable) (earlier later : SymbolId) : Bool :=
  (t.get earlier).isType == (t.get later).isType &&
    !((t.get earlier).isMethod && (t.get later).isMethod)

/-- Members named `name`, most derived first. -/
def findMember (fuel : Nat) (ty : Ty) (name : String) : SymM (List SymbolId) := do
  let owners ← memberOwners fuel ty
  let t ← get
  return (owners.flatMap (t.declsNamed · name)).foldl
    (fun found m => if found.any (t.hides · m) then found else found ++ [m]) []

/-- Info of a member as seen from `ty`. -/
def memberInfo (fuel : Nat) (ty : Ty) (member : SymbolId) : SymM Ty := do
  let r ← SymM.record member
  asSeenFrom fuel r.info ty r.owner

/-- A type member is the reference `ty#member`, another one has its info. -/
def memberType (fuel : Nat) (ty : Ty) (member : SymbolId) : SymM Ty := do
  let r ← SymM.record member
  if r.isType then return .ref ty member ((← get).paramRefs r.tparams)
  memberInfo fuel ty member

end Conformance

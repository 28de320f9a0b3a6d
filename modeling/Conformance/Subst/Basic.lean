import Conformance.Table.Reference

/-!
Maps over types. A map rebuilds a type from its mapped components; a type whose
components stay is returned as it is. Where a map changes the info of a bound
symbol the binder is copied, so that no symbol is modified, and the body is
renamed to the copies; members of a refinement are copied into a new refinement
class. `fuel` bounds the nesting of types and infos.
-/

namespace Conformance

abbrev TypeMap := Ty → SymM Ty

/-- A way to rename the symbols of one list to those of another. -/
abbrev Renaming := List SymbolId → List SymbolId → TypeMap

/-- The substitutions that a map needs to move a body to copied binders. -/
structure Rebinding where
  rename : Renaming
  replaceThis : SymbolId → Ty → TypeMap

namespace Rebinding

/-- Map the infos of `binders`, then `body`. If an info changed, give copies of
the binders and the body over them. -/
def mapBinder (rb : Rebinding) (f : TypeMap) (binders : List SymbolId) (body : Ty) :
    SymM (List SymbolId × Ty) := do
  let infos := binders.map (← get).info
  let infos' ← infos.mapM f
  let body' ← f body
  if infos' = infos then return (binders, body')
  let copies ← binders.mapM SymM.cloneSymbol
  (copies.zip infos').forM fun (copy, info) => do
    SymM.setInfo copy (← rb.rename binders copies info)
  return (copies, ← rb.rename binders copies body')

/-- A refined type over copies of the members `decls` of `cls`, with the given
infos, in a new refinement class. -/
def copyRefined (rb : Rebinding) (parents : List Ty) (decls : List SymbolId) (infos : List Ty)
    (cls : SymbolId) : SymM Ty := do
  let cls' ← SymM.newRefinementClass ((← get).owner cls)
  let decls' ← (decls.zip infos).mapM fun (d, info) => do
    let copy ← SymM.cloneSymbol d
    modify (·.update copy ({ · with owner := cls' }))
    SymM.setInfo copy (← rb.replaceThis cls (.this cls') info)
    return copy
  SymM.refinedType cls' parents decls'

/-- Map the parents, then the info that each member has by then. If a member has
another info in the end, copy the members. -/
def mapRefined (rb : Rebinding) (f : TypeMap) (ty : Ty) (parents : List Ty)
    (decls : List SymbolId) (cls : SymbolId) : SymM Ty := do
  let parents' ← parents.mapM f
  let infos' ← decls.mapM fun d => do f (← SymM.info d)
  if infos' != decls.map (← get).info then rb.copyRefined parents' decls infos' cls
  else return if parents' = parents then ty else .refined parents' decls cls

/-- Rebuild `ty` with `f` applied to its components. -/
def mapOver (rb : Rebinding) (f : TypeMap) (ty : Ty) : SymM Ty :=
  match ty with
  | .single pre s => do
    let pre' ← f pre
    return if pre' = pre then ty else .single pre' s
  | .ref pre s args => do
    let pre' ← f pre
    let args' ← args.mapM f
    return if pre' = pre ∧ args' = args then ty else .ref pre' s args'
  | .refined parents decls cls => rb.mapRefined f ty parents decls cls
  | .exist qs body => do
    let (qs', body') ← rb.mapBinder f qs body
    return if qs' = qs ∧ body' = body then ty else .existential qs' body'
  | .annotated as body => do
    let body' ← f body
    return if body' = body then ty else .annotate as body'
  | .boundedWildcard b => do
    let b' ← f b
    return if b' = b then ty else .boundedWildcard b'
  | .bounds lo hi => do
    let lo' ← f lo
    let hi' ← f hi
    return if lo' = lo ∧ hi' = hi then ty else .bounds lo' hi'
  | .method ps r flags => do
    let (ps', r') ← rb.mapBinder f ps r
    return if ps' = ps ∧ r' = r then ty else .method ps' r' flags
  | .nullary r => do
    let r' ← f r
    return if r' = r then ty else .nullary r'
  | .poly ps r => do
    let (ps', r') ← rb.mapBinder f ps r
    return if ps' = ps ∧ r' = r then ty else .lambda ps' r'
  | .notNull b => do
    let b' ← f b
    return if b' = b then ty else .notNull b'
  | ty => return ty

end Rebinding

/-- What `s` becomes when the symbols in `src` are renamed to those in `dst`;
`none` if it keeps its name. -/
def renamedSymbol? (src dst : List SymbolId) (s : SymbolId) : SymM (Option SymbolId) :=
  match src.idxOf? s with
  | none => return none
  | some i =>
    match dst[i]? with
    | some s' => return some s'
    | none => throw (.missingReplacement (min src.length dst.length) i)

mutual
/-- Rename the symbols in `src` to those in `dst`. -/
def substSym : Nat → List SymbolId → List SymbolId → TypeMap
  | 0, _, _, _ => throw .exhausted
  | fuel + 1, src, dst, ty =>
    if src.isEmpty || ty.isSentinel then return ty
    else match ty with
      | .this s => do
        match ← renamedSymbol? src dst s with
        | some s' => return .this s'
        | none => return ty
      | .single pre s => do
        match ← renamedSymbol? src dst s with
        | some s' => return .single (← substSym fuel src dst pre) s'
        | none => Rebinding.mapOver ⟨substSym fuel, substThis fuel⟩ (substSym fuel src dst) ty
      | .ref pre s args => do
        match ← renamedSymbol? src dst s with
        | some s' =>
          let pre' ← substSym fuel src dst pre
          return .ref pre' s' (← args.mapM (substSym fuel src dst))
        | none => Rebinding.mapOver ⟨substSym fuel, substThis fuel⟩ (substSym fuel src dst) ty
      | ty => Rebinding.mapOver ⟨substSym fuel, substThis fuel⟩ (substSym fuel src dst) ty

/-- Replace `cls.this` by `target`. -/
def substThis : Nat → SymbolId → Ty → TypeMap
  | 0, _, _, _ => throw .exhausted
  | fuel + 1, cls, target, ty =>
    if ty.isSentinel || target == .this cls then return ty
    else if ty == .this cls then return target
    else Rebinding.mapOver ⟨substSym fuel, substThis fuel⟩ (substThis fuel cls target) ty
end

/-- The substitutions with the given fuel. -/
def Rebinding.at (fuel : Nat) : Rebinding := ⟨substSym fuel, substThis fuel⟩

/-- Apply a type constructor to arguments, given the parameter substitution. A
type lambda of another arity gives `error`, a type that takes none stays. -/
def applyArgsWith (subst : List SymbolId → List Ty → TypeMap) (tycon : Ty) (args : List Ty) :
    SymM Ty :=
  match tycon with
  | .ref pre s [] => return .ref pre s args
  | .poly tparams result =>
    if tparams.length = args.length then subst tparams args result else return .error
  | _ => return tycon

/-- Replace references without prefix to the parameters `src` by the types
`dst`, applied to the arguments of the reference if it has any. -/
def substTypes : Nat → List SymbolId → List Ty → TypeMap
  | 0, _, _, _ => throw .exhausted
  | fuel + 1, src, dst, ty =>
    if src.isEmpty || ty.isSentinel then return ty
    else match ty with
      | .ref .noPrefix s args =>
        match (src.zip dst).lookup s with
        | some replacement =>
          if args.isEmpty then return replacement
          else do
            let args' ← args.mapM (substTypes fuel src dst)
            applyArgsWith (substTypes fuel) replacement args'
        | none => (Rebinding.at fuel).mapOver (substTypes fuel src dst) ty
      | ty => (Rebinding.at fuel).mapOver (substTypes fuel src dst) ty

/-- Apply a type constructor to arguments. -/
def applyTypeArgs (fuel : Nat) (tycon : Ty) (args : List Ty) : SymM Ty :=
  applyArgsWith (substTypes fuel) tycon args

/-- Replace every occurrence of one type by another. -/
def replaceType : Nat → Ty → Ty → TypeMap
  | 0, _, _, _ => throw .exhausted
  | fuel + 1, source, target, ty =>
    if ty = source then return target
    else (Rebinding.at fuel).mapOver (replaceType fuel source target) ty

/-- Replace instantiated variables by their instantiations. Those in
`expanding` are being replaced further up and stay. -/
def instantiateWith (inst? : VarId → Option Ty) : Nat → List VarId → TypeMap
  | 0, _, _ => throw .exhausted
  | fuel + 1, expanding, ty =>
    match ty with
    | .var v =>
      if expanding.contains v then return ty
      else match inst? v with
        | some t => instantiateWith inst? fuel (v :: expanding) t
        | none => return ty
    | ty => (Rebinding.at fuel).mapOver (instantiateWith inst? fuel expanding) ty

/-- Copies of `syms` whose infos refer to the copies. -/
def Renaming.cloneSymbols (rename : Renaming) (syms : List SymbolId) : SymM (List SymbolId) := do
  let copies ← syms.mapM SymM.cloneSymbol
  copies.forM fun copy => do
    SymM.setInfo copy (← rename syms copies (← SymM.info copy))
  return copies

def cloneSymbols (fuel : Nat) := Renaming.cloneSymbols (substSym fuel)

end Conformance

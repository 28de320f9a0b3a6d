import Conformance.KeySet
import Conformance.Table.Ownership
import Conformance.View.Normal

/-!
The innermost symbol that encloses every local reference of some types. Types
refer to local scopes by `C.this` and by references without prefix.
-/

namespace Conformance

/-- Result so far, and the types that were traversed. -/
structure OwnerFinder where
  found : Option SymbolId := none
  visited : KeySet Ty := .empty
deriving Repr, Inhabited

namespace OwnerFinder

/-- The absent symbol when nothing was registered. -/
def result (f : OwnerFinder) : SymbolId := f.found.getD .none

/-- Widen the result until it encloses `s`. -/
def register (t : SymbolTable) (f : OwnerFinder) (s : SymbolId) : OwnerFinder :=
  match f.found with
  | some current =>
    if s.isPresent then
      { f with found := some (((t.ownerChain current).find? (t.isNestedIn s)).getD .none) }
    else { f with found := some s }
  | none => { f with found := some s }

/-- Register the local references of `ty` in normal form. -/
def traverse : Nat → OwnerFinder → Ty → SymM OwnerFinder
  | 0, _, _ => throw .exhausted
  | fuel + 1, f, ty => do
    let ty ← normalize fuel ty
    if f.visited.contains ty then return f
    let f := { f with visited := f.visited.insert ty }
    let t ← get
    match ty with
    | .this s => return f.register t s
    | .ref .noPrefix s args => args.foldlM (traverse fuel) (f.register t (t.owner s))
    | .single .noPrefix s => return f.register t (t.owner s)
    | ty => (t.children ty).foldlM (traverse fuel) f

end OwnerFinder

def commonOwner (fuel : Nat) (types : List Ty) : SymM SymbolId :=
  return (← types.foldlM (OwnerFinder.traverse fuel) {}).result

end Conformance

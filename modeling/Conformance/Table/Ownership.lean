import Conformance.Table.Known
import Conformance.Table.Basic

/-!
Walks along owners. A symbol is met at most once on a chain that ends, so
`size + 1` steps reach the end of every such chain.
-/

namespace Conformance.SymbolTable

/-- The first `n` symbols on the chain of owners from `s`, up to the absent one. -/
def ownersUpTo (t : SymbolTable) : Nat → SymbolId → List SymbolId
  | 0, _ => []
  | n + 1, s => if s.isPresent then s :: t.ownersUpTo n (t.owner s) else []

/-- `s`, its owner, the owner of that one and so on, innermost first. -/
def ownerChain (t : SymbolTable) (s : SymbolId) : List SymbolId :=
  t.ownersUpTo (t.size + 1) s

/-- `s` is `owner` or owned by it, directly or not. -/
def isNestedIn (t : SymbolTable) (s owner : SymbolId) : Bool :=
  !owner.isPresent || (t.ownerChain s).contains owner

/-- Dotted path from the outermost owner below the root. -/
def fullName (t : SymbolTable) (s : SymbolId) : String :=
  let path := (t.ownerChain s).takeWhile fun o => o != Known.rootClass && o != Known.rootPackage
  ".".intercalate (path.reverse.map t.name)

end Conformance.SymbolTable

import Conformance.Symbol.Flags
import Conformance.Ty.Basic
import Conformance.Variance

/-!
What is known of one symbol. The meaning of `info` follows the kind: bounds of
a type parameter or abstract type (`noType` for the widest bounds), right-hand
side of an alias, type of a value or method, refined type of a refinement class.
-/

namespace Conformance

inductive SymbolKind where
  | absent
  | packageClass
  | plainClass
  | moduleClass
  | refinementClass
  | typeParam
  | abstractType
  | aliasType
  | packageTerm
  | moduleTerm
  | value
  | method
deriving DecidableEq, Repr, Inhabited

namespace SymbolKind

def isClass : SymbolKind → Bool
  | .packageClass | .plainClass | .moduleClass | .refinementClass => true
  | _ => false

def isType : SymbolKind → Bool
  | .typeParam | .abstractType | .aliasType => true
  | k => k.isClass

def isTerm : SymbolKind → Bool
  | .packageTerm | .moduleTerm | .value | .method => true
  | _ => false

end SymbolKind

structure SymbolRecord where
  id : SymbolId
  name : String
  owner : SymbolId
  kind : SymbolKind
  flags : Flags
  tparams : List SymbolId := []
  info : Ty := .noType
  /-- Parent types of a class, superclass first. -/
  parents : List Ty := []
  /-- Members declared in a class itself. -/
  decls : Array SymbolId := #[]
  /-- Links a module and its class, a package and its class. -/
  companion : SymbolId := .none
  /-- Nesting of skolemization at which a skolem was made. -/
  level : Nat := 0
deriving DecidableEq, Repr, Inhabited

namespace SymbolRecord

/-- Record of the absent symbol, its own owner. -/
def absent : SymbolRecord :=
  { id := .none, name := "<none>", owner := .none, kind := .absent, flags := .empty }

def isClass (r : SymbolRecord) : Bool := r.kind.isClass

def isType (r : SymbolRecord) : Bool := r.kind.isType

def isTerm (r : SymbolRecord) : Bool := r.kind.isTerm

def isPackageClass (r : SymbolRecord) : Bool := r.kind == .packageClass

def isPackage (r : SymbolRecord) : Bool := r.kind == .packageTerm || r.kind == .packageClass

def isModuleClass (r : SymbolRecord) : Bool := r.kind == .moduleClass

def isRefinementClass (r : SymbolRecord) : Bool := r.kind == .refinementClass

/-- Abstract type member or type parameter. -/
def isAbstractType (r : SymbolRecord) : Bool := r.isType && !r.isClass && r.flags.has .deferred

def isAliasType (r : SymbolRecord) : Bool := r.kind == .aliasType

def isMethod (r : SymbolRecord) : Bool := r.kind == .method

def isHidden (r : SymbolRecord) : Bool := r.flags.has .hidden

def isJava (r : SymbolRecord) : Bool := r.flags.has .java

def variance (r : SymbolRecord) : Variance :=
  if r.flags.has .covariant then .covariant
  else if r.flags.has .contravariant then .contravariant
  else .invariant

end SymbolRecord

end Conformance

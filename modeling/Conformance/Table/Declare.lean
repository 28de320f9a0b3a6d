import Conformance.Table.Basic
import Conformance.Table.Known

/-!
Entering symbols. Each operation takes the next identifiers in the order in
which it enters its symbols; a package or module is its class, then its term.
-/

namespace Conformance

namespace SymbolTable

/-- Prefix of a reference to a member of `owner` from outside: `owner.this` for
classes and packages, none for local owners. -/
def prefixFor (t : SymbolTable) (owner : SymbolId) : Ty :=
  if owner.isPresent && (t.kind owner).isClass then .this owner else .noPrefix

end SymbolTable

namespace SymM

def enter (name : String) (owner : SymbolId) (kind : SymbolKind) (flags : Flags) : SymM SymbolId :=
  modifyGet fun t => (t.nextId, t.add { id := t.nextId, name, owner, kind, flags })

def record (s : SymbolId) : SymM SymbolRecord := return (← get).get s

def info (s : SymbolId) : SymM Ty := return (← get).info s

def setInfo (s : SymbolId) (info : Ty) : SymM Unit := modify (·.setInfo s info)

def linkCompanions (term cls : SymbolId) : SymM Unit := do
  modify (·.update term ({ · with companion := cls }))
  modify (·.update cls ({ · with companion := term }))

/-- The package class of a new package. -/
def newPackage (owner : SymbolId) (name : String) : SymM SymbolId := do
  let cls ← enter name owner .packageClass (.single .package)
  let term ← enter name owner .packageTerm (.ofList [.package, .stable])
  linkCompanions term cls
  return cls

def newClass (owner : SymbolId) (name : String) (flags : Flags) : SymM SymbolId :=
  enter name owner .plainClass flags

/-- The term of a new module; its class is the companion. -/
def newModule (owner : SymbolId) (name : String) : SymM SymbolId := do
  let cls ← enter name owner .moduleClass (.ofList [.module, .final])
  let term ← enter name owner .moduleTerm (.ofList [.module, .stable])
  linkCompanions term cls
  let pre := (← get).prefixFor owner
  setInfo term (.ref pre cls [])
  modify (·.setParents cls [Known.anyRefType])
  return term

def newTypeParam (owner : SymbolId) (name : String) (variance : Variance) : SymM SymbolId :=
  enter name owner .typeParam <| match variance with
    | .invariant => .ofList [.deferred, .param]
    | .covariant => .ofList [.deferred, .param, .covariant]
    | .contravariant => .ofList [.deferred, .param, .contravariant]

/-- Enter a symbol and record it as a member of its owner. -/
def enterMember (name : String) (owner : SymbolId) (kind : SymbolKind) (flags : Flags) :
    SymM SymbolId := do
  let s ← enter name owner kind flags
  modify (·.addDecl owner s)
  return s

def newAbstractType (owner : SymbolId) (name : String) : SymM SymbolId :=
  enterMember name owner .abstractType (.single .deferred)

/-- An existentially bound type is no member of its owner. -/
def newExistential (owner : SymbolId) (name : String) : SymM SymbolId :=
  enter name owner .abstractType (.ofList [.deferred, .existential])

def newAliasType (owner : SymbolId) (name : String) : SymM SymbolId :=
  enterMember name owner .aliasType .empty

def newValue (owner : SymbolId) (name : String) (flags : Flags) : SymM SymbolId :=
  enterMember name owner .value flags

def newMethod (owner : SymbolId) (name : String) (flags : Flags) : SymM SymbolId :=
  enterMember name owner .method flags

/-- A value parameter of a method type. -/
def newParam (owner : SymbolId) (name : String) (info : Ty) : SymM SymbolId := do
  let s ← enter name owner .value (.ofList [.param, .stable])
  setInfo s info
  return s

def newRefinementClass (owner : SymbolId) : SymM SymbolId :=
  enter "<refinement>" owner .refinementClass (.single .synthetic)

/-- A type symbol with the name, flags and info of `template`. A template that
is no type or is a class gives an abstract type. -/
def newTypeLike (template owner : SymbolId) (extra : Flags) (level : Nat) : SymM SymbolId :=
  modifyGet fun t =>
    let source := t.get template
    let kind := if !source.isType || source.isClass then .abstractType else source.kind
    (t.nextId, t.add
      { id := t.nextId, name := source.name, owner, kind, flags := source.flags.union extra,
        info := source.info, level })

/-- A copy under a fresh identifier, with the same owner and info. -/
def cloneSymbol (s : SymbolId) : SymM SymbolId :=
  modifyGet fun t => (t.nextId, t.add (t.get s))

/-- Enter a final value class of the package `scala`. -/
def enterValueClass (name : String) : SymM Unit := do
  let cls ← newClass Known.scalaClass name (.single .final)
  modify (·.setParents cls [Known.anyValType])

/-- Enter the symbols named by `Known`, in the order of their identifiers. -/
def enterKnown : SymM Unit := do
  let rootClass ← enter "<root>" .none .packageClass (.single .package)
  let rootPackage ← enter "<root>" .none .packageTerm (.single .package)
  linkCompanions rootPackage rootClass
  let scala ← newPackage rootClass "scala"
  let java ← newPackage rootClass "java"
  let lang ← newPackage java "lang"
  let _any ← newClass scala "Any" .empty
  let object ← newClass lang "Object" (.single .java)
  modify (·.setParents object [Known.anyType])
  let anyRef ← newAliasType scala "AnyRef"
  setInfo anyRef Known.objectType
  let anyVal ← newClass scala "AnyVal" .empty
  modify (·.setParents anyVal [Known.anyType])
  let nothing ← newClass scala "Nothing" (.single .final)
  modify (·.setParents nothing [Known.anyType])
  let null ← newClass scala "Null" (.single .final)
  modify (·.setParents null [Known.objectType])
  let singleton ← newClass scala "Singleton" (.single .trait)
  modify (·.setParents singleton [Known.anyType])
  let notNull ← newClass scala "NotNull" (.single .trait)
  modify (·.setParents notNull [Known.anyType])
  ["Int", "Long", "Double", "Boolean", "Char", "Unit"].forM enterValueClass
  let string ← newClass lang "String" (.ofList [.java, .final])
  modify (·.setParents string [Known.objectType])

end SymM

/-- The table with the absent symbol and the known ones. -/
def SymbolTable.initial : SymbolTable :=
  match SymM.enterKnown.run { records := #[.absent] } with
  | .ok _ t => t
  | .error _ t => t

end Conformance

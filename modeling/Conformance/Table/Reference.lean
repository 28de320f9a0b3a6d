import Conformance.Table.Declare

/-!
Types that refer to a symbol from outside its owner.
-/

namespace Conformance

namespace SymbolTable

/-- Parameters and quantifiers need no prefix. -/
def prefixOf (t : SymbolTable) (s : SymbolId) : Ty :=
  if (t.flags s).has .param || (t.flags s).has .existential then .noPrefix
  else t.prefixFor (t.owner s)

/-- `s` applied to `args`. -/
def classType (t : SymbolTable) (s : SymbolId) (args : List Ty) : Ty := .ref (t.prefixOf s) s args

/-- `s` without arguments. -/
def typeConstructor (t : SymbolTable) (s : SymbolId) : Ty := t.classType s []

def paramRefs (t : SymbolTable) (params : List SymbolId) : List Ty := params.map t.typeConstructor

/-- `s` applied to its own type parameters. -/
def typeRefOf (t : SymbolTable) (s : SymbolId) : Ty := t.classType s (t.paramRefs (t.tparams s))

/-- Singleton type of a stable value or module. -/
def singleTypeOf (t : SymbolTable) (s : SymbolId) : Ty := .single (t.prefixOf s) s

/-- Declared bounds of an abstract type. -/
def boundsOf (t : SymbolTable) (s : SymbolId) : Ty × Ty :=
  match t.info s with
  | .bounds lo hi => (lo, hi)
  | .noType | .dangling _ => (Known.nothingType, Known.anyType)
  | info => (info, info)

/-- Declared bounds as a type. -/
def paramBounds (t : SymbolTable) (s : SymbolId) : Ty := .bounds (t.boundsOf s).1 (t.boundsOf s).2

/-- A Java generic class used without arguments. -/
def isRaw (t : SymbolTable) : Ty → Bool
  | .ref _ s args =>
    (t.get s).isClass && (t.get s).isJava && !(t.get s).tparams.isEmpty && args.isEmpty
  | _ => false

/-- A type constructor that awaits arguments; raw types are none. -/
def isHigherKinded (t : SymbolTable) : Ty → Bool
  | .poly .. => true
  | .ref pre s args => args.isEmpty && !(t.get s).tparams.isEmpty && !t.isRaw (.ref pre s args)
  | _ => false

end SymbolTable

/-- A refined type whose members belong to `cls`, recorded as the info of `cls`. -/
def SymM.refinedType (cls : SymbolId) (parents : List Ty) (decls : List SymbolId) : SymM Ty := do
  SymM.setInfo cls (.refined parents decls cls)
  return .refined parents decls cls

end Conformance

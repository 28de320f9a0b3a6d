import Conformance.Ty.Equality

/-!
Kinds of types, wrappers that add nothing when they have nothing to add, and
annotations.
-/

namespace Conformance

namespace Ty

/-- The four types that carry no structure. -/
def isSentinel : Ty → Bool
  | .noType | .noPrefix | .error | .wildcard => true
  | _ => false

/-- An erroneous or unknown type relates to every type. -/
def isPermissive : Ty → Bool
  | .error | .wildcard => true
  | _ => false

/-- Any type but `noType`. -/
def isPresent : Ty → Bool
  | .noType => false
  | _ => true

/-- Paths: `C.this` and `pre.x`. -/
def isSingletonRef : Ty → Bool
  | .this _ | .single .. => true
  | _ => false

def isConstant : Ty → Bool
  | .const _ => true
  | _ => false

/-- Paths and constants. -/
def isSingleton : Ty → Bool
  | .this _ | .single .. | .const _ => true
  | _ => false

/-- `body forSome { quantified }`; no quantifier, no wrapper. -/
def existential (quantified : List SymbolId) (body : Ty) : Ty :=
  if quantified.isEmpty then body else .exist quantified body

/-- `body @a1 ... @an`; no annotation, no wrapper. -/
def annotate (annotations : List SymbolId) (body : Ty) : Ty :=
  if annotations.isEmpty then body else .annotated annotations body

/-- `[tparams]result`; no parameter, no wrapper. -/
def lambda (tparams : List SymbolId) (result : Ty) : Ty :=
  if tparams.isEmpty then result else .poly tparams result

/-- The type below all annotations. -/
def withoutAnnotations : Ty → Ty
  | .annotated _ body => body.withoutAnnotations
  | t => t

/-- Annotation classes, outermost first. -/
def annotations : Ty → List SymbolId
  | .annotated as body => as ++ body.annotations
  | _ => []

end Ty

end Conformance

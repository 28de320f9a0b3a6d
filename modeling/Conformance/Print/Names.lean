import Conformance.Checker.Solve
import Conformance.EventFormat
import Conformance.Guard

/-!
Names by which the parts of a symbol, a policy or a report are read and written.
-/

namespace Conformance

def Flag.name : Flag → String
  | .package => "PACKAGE"
  | .module => "MODULE"
  | .deferred => "DEFERRED"
  | .existential => "EXISTENTIAL"
  | .java => "JAVA"
  | .covariant => "COVARIANT"
  | .contravariant => "CONTRAVARIANT"
  | .hidden => "PRIVATE"
  | .skolem => "SKOLEM"
  | .typeConstraint => "TYPE_CONSTRAINT"
  | .trait => "TRAIT"
  | .stable => "STABLE"
  | .param => "PARAM"
  | .implicit => "IMPLICIT"
  | .synthetic => "SYNTHETIC"
  | .final => "FINAL"

def Flag.ofName? (name : String) : Option Flag := Flag.all.find? fun f => f.name == name

/-- The set of the named flags, if every name is one. -/
def Flags.ofNames? (names : List String) : Option Flags := .ofList <$> names.mapM Flag.ofName?

/-- Method marks of the given names. -/
def MethodFlags.ofNames? (names : List String) : Option MethodFlags :=
  names.foldlM (fun fs name => match name with
    | "IMPLICIT" => some { fs with implicit := true }
    | "JAVA" => some { fs with java := true }
    | _ => none) {}

def Variance.sign : Variance → String
  | .covariant => "+"
  | .contravariant => "-"
  | .invariant => "="

def Variance.ofSign? : String → Option Variance
  | "+" => some .covariant
  | "-" => some .contravariant
  | "=" => some .invariant
  | _ => none

def SymbolKind.name : SymbolKind → String
  | .absent => "NoSymbol"
  | .packageClass => "PackageClass"
  | .plainClass => "Class"
  | .moduleClass => "ModuleClass"
  | .refinementClass => "RefinementClass"
  | .typeParam => "TypeParam"
  | .abstractType => "AbstractType"
  | .aliasType => "AliasType"
  | .packageTerm => "Package"
  | .moduleTerm => "Module"
  | .value => "Value"
  | .method => "Method"

/-- Names of the properties that hold of a symbol. -/
def SymbolRecord.properties (r : SymbolRecord) : List String :=
  [("class", r.isClass), ("type", r.isType), ("term", r.isTerm),
    ("package_class", r.isPackageClass), ("package", r.isPackage),
    ("module_class", r.isModuleClass), ("refinement_class", r.isRefinementClass),
    ("abstract_type", r.isAbstractType), ("alias_type", r.isAliasType),
    ("method", r.isMethod), ("private", r.isHidden), ("java", r.isJava)].filterMap
    fun (name, holds) => if holds then some name else none

def GuardProfile.ofName? : String → Option GuardProfile
  | "PendingSubtypes" => some .pendingSubtypes
  | "Linearization" => some .linearization
  | "BaseTypeExpansion" => some .baseTypeExpansion
  | "SkolemizationLevel" => some .skolemizationLevel
  | _ => none

def Relation.name : Relation → String
  | .subtype => "is_subtype"
  | .sameType => "is_same_type"

def EventFormat.name : EventFormat → String
  | .text => "Text"
  | .tree => "Tree"
  | .json => "Json"

def SolveError.name {τ : Type} : SolveError τ → String
  | .unknownVar _ => "UnknownVar"
  | .notAVar _ => "NotATypeVar"
  | .boundsViolation .. => "BoundsViolation"
  | .occursCheck .. => "OccursCheck"
  | .arityMismatch .. => "ArityMismatch"

end Conformance

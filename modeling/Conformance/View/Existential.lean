import Conformance.View.CommonOwner

/-!
Opening existential types, and closing raw ones.
-/

namespace Conformance

/-- Set the info of each copy to that of its source, renamed to the copies. -/
def copyInfos (rename : Renaming) (sources copies : List SymbolId) : SymM Unit :=
  (sources.zip copies).forM fun (source, copy) => do
    SymM.setInfo copy (← rename sources copies (← SymM.info source))

/-- A raw class with parameters `ps` means `C[ps'] forSome { ps' }`. -/
def Renaming.rawToExistential (rename : Renaming) (ty : Ty) : SymM Ty :=
  match ty with
  | .ref pre s _ => do
    let tparams := (← get).tparams s
    if tparams.isEmpty then return ty
    let quantified ← tparams.mapM fun p => do SymM.newExistential s ((← get).name p)
    copyInfos rename tparams quantified
    return .existential quantified (.ref pre s ((← get).paramRefs quantified))
  | ty => return ty

def rawToExistential (fuel : Nat) := Renaming.rawToExistential (substSym fuel)

/-- Replace the quantifiers of an existential by skolems made at `level`. -/
def Renaming.skolemize (rename : Renaming) (fuel : Nat) (ty : Ty) (level : Nat) : SymM Ty :=
  match ty with
  | .exist quantified body => do
    let owner ← commonOwner fuel [ty]
    let skolems ← quantified.mapM fun q =>
      SymM.newTypeLike q owner (.ofList [.skolem, .existential, .deferred]) level
    copyInfos rename quantified skolems
    rename quantified skolems body
  | ty => return ty

def skolemize (fuel : Nat) := Renaming.skolemize (substSym fuel) fuel

end Conformance

import Conformance.Limits
import Conformance.Table.Known
import Conformance.Table.Basic

/-!
Class linearization. The superclass's linearization is the tail; each further
parent prepends the classes it adds. A class met again below itself, or more
than `Limits.linearizationDepth` classes deep, contributes nothing there.
Results are remembered until parents change.
-/

namespace Conformance

namespace SymbolTable

/-- Class behind a parent type, through at most `n` aliases and annotations. -/
def parentClassUpTo (t : SymbolTable) : Nat → Ty → SymbolId
  | 0, _ => .none
  | n + 1, ty =>
    match ty with
    | .ref _ s _ =>
      if (t.get s).isClass then s
      else if (t.get s).isAliasType then t.parentClassUpTo n (t.info s)
      else .none
    | .refined _ _ cls => cls
    | .annotated _ body => t.parentClassUpTo n body
    | _ => .none

def parentClass (t : SymbolTable) (ty : Ty) : SymbolId := t.parentClassUpTo Limits.aliasSteps ty

def linearization? (t : SymbolTable) (s : SymbolId) : Option (List SymbolId) :=
  t.linearized.lookup s

def rememberLinearization (t : SymbolTable) (s : SymbolId)
    (classes : List SymbolId) : SymbolTable :=
  { t with linearized := (s, classes) :: t.linearized }

end SymbolTable

namespace SymM

/-- Prepend to `tail` what `added` holds beyond it. -/
def mixIn (tail added : List SymbolId) : List SymbolId :=
  added.filter (fun c => !tail.contains c) ++ tail

/-- Linearization of `s` with `n` levels left, where the classes in `active`
are being linearized further up. -/
def linearize : Nat → List SymbolId → SymbolId → SymM (List SymbolId)
  | n, active, s => do
    match (← get).linearization? s with
    | some classes => return classes
    | none =>
      let r := (← get).get s
      if !r.isClass then return []
      match n with
      | 0 => return []
      | n + 1 =>
        if active.contains s then return []
        let parents := r.parents.map (← get).parentClass
        let tail ← match parents.head? with
          | some superclass => if superclass.isPresent then
            linearize n (s :: active) superclass else pure []
          | none => pure []
        let tail ← (parents.tail.filter (·.isPresent)).foldlM
          (fun tail m => return mixIn tail (← linearize n (s :: active) m)) tail
        let classes := s :: if tail.contains s then tail.filter (· != s) else tail
        modify (·.rememberLinearization s classes)
        return classes

/-- The class itself, then its base classes from the most derived one to the root. -/
def baseClasses (s : SymbolId) : SymM (List SymbolId) :=
  linearize Limits.linearizationDepth [] s

/-- Derivation that ignores the bottom classes. -/
def isNonBottomSubClass (s1 s2 : SymbolId) : SymM Bool := do
  if s1 == s2 then return true
  return (← baseClasses s1).contains s2

/-- Instances may be null: no `Nothing`, no value class, no `NotNull` class. -/
def containsNull (s : SymbolId) : SymM Bool := do
  if !((← get).kind s).isClass || s == Known.nothing then return false
  if ← isNonBottomSubClass s Known.anyVal then return false
  return !(← isNonBottomSubClass s Known.notNull)

/-- Derivation where `Nothing` derives from every class and `Null` from every
class that admits null. -/
def isSubClass (s1 s2 : SymbolId) : SymM Bool := do
  if s1 == s2 then return true
  if !((← get).kind s2).isClass then return false
  if s1 == Known.nothing then return true
  if s1 == Known.null then return ← containsNull s2
  isNonBottomSubClass s1 s2

end SymM

end Conformance

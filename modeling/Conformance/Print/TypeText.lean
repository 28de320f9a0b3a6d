import Conformance.Decimal.Shortest
import Conformance.Limits
import Conformance.Table.Ownership
import Conformance.Table.Reference

/-!
Readable text of types. Symbols appear by their names, packages by their full
names. A prefix is shown when it is a path (`x.T`) or a general type (`P#T`),
not when it is a `this` type. Types nested too deeply are cut to dots.
-/

namespace Conformance

namespace SymbolTable

def symbolText (t : SymbolTable) (s : SymbolId) : String :=
  if (t.get s).isPackage then t.fullName s else t.name s

end SymbolTable

def Constant.text : Constant → String
  | .unit => "()"
  | .null => "null"
  | .boolean value => if value then "true" else "false"
  | .char value => "'" ++ value.toString ++ "'"
  | .int value => toString value
  | .long value => toString value ++ "L"
  | .double bits => doubleText bits
  | .str value => "\"" ++ value ++ "\""

section Parts

variable (t : SymbolTable) (text : Ty → String)

/-- Text before the name of a member of `pre`. -/
def prefixText : Ty → String
  | .noPrefix | .this _ => ""
  | .single pre s => prefixText pre ++ t.symbolText s ++ "."
  | pre => text pre ++ "#"

/-- Bounds, the widest ones omitted. -/
def boundsText (lo hi : Ty) : String :=
  (if lo = Known.nothingType then "" else " >: " ++ text lo) ++
    (if hi = Known.anyType then "" else " <: " ++ text hi)

/-- Declaration of a bound symbol or member. -/
def declText (d : SymbolId) : String :=
  let r := t.get d
  let (lo, hi) := t.boundsOf d
  let name := t.symbolText d
  if r.flags.has .param && r.isType then name ++ boundsText text lo hi
  else if r.isAliasType then "type " ++ name ++ " = " ++ text r.info
  else if r.isType then "type " ++ name ++ boundsText text lo hi
  else if r.isMethod then "def " ++ name ++ text r.info
  else "val " ++ name ++ ": " ++ text r.info

def paramText (p : SymbolId) : String := t.symbolText p ++ ": " ++ text (t.info p)

/-- Text of a type, given the text of its components. -/
def typeTextWith : Ty → String
  | .noType | .dangling _ => "<notype>"
  | .noPrefix => "<noprefix>"
  | .error => "<error>"
  | .wildcard => "?"
  | .this s => t.symbolText s ++ ".this.type"
  | .single pre s => prefixText t text pre ++ t.symbolText s ++ ".type"
  | .const value => value.text
  | .ref pre s args =>
    prefixText t text pre ++ t.symbolText s ++
      (if args.isEmpty then "" else "[" ++ ", ".intercalate (args.map text) ++ "]")
  | .refined parents decls _ =>
    let head := " with ".intercalate (parents.map text)
    if decls.isEmpty && !parents.isEmpty then head
    else
      head ++ (if head.isEmpty then "" else " ") ++
        "\x7b " ++ "; ".intercalate (decls.map (declText t text)) ++ " \x7d"
  | .exist qs body =>
    text body ++ " forSome \x7b " ++ "; ".intercalate (qs.map (declText t text)) ++ " \x7d"
  | .annotated as body => text body ++ String.join (as.map fun a => " @" ++ t.symbolText a)
  | .boundedWildcard b => "?" ++ text b
  | .bounds lo hi => boundsText text lo hi
  | .method ps r flags =>
    "(" ++ (if flags.implicit then "implicit " else "") ++
      ", ".intercalate (ps.map (paramText t text)) ++ ")" ++ text r
  | .nullary r => "=> " ++ text r
  | .poly ps r => "[" ++ ", ".intercalate (ps.map (declText t text)) ++ "]" ++ text r
  | .var v => "?" ++ toString v.val
  | .notNull b => text b ++ " with NotNull"

end Parts

/-- Text of a type in which at most `n` levels are shown. -/
def typeTextUpTo (t : SymbolTable) : Nat → Ty → String
  | 0, _ => "..."
  | n + 1, ty => typeTextWith t (typeTextUpTo t n) ty

/-- Text of a type whose components are shown down to `depth`. -/
def typeTextTo (t : SymbolTable) (depth : Nat) (ty : Ty) : String := typeTextUpTo t (depth + 1) ty

def typeText (t : SymbolTable) (ty : Ty) : String := typeTextTo t Limits.printDepth ty

end Conformance

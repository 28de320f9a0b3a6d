import Conformance.Table.Basic

/-!
Outline of a type: constructor names around symbols and components, with the
components below the sixth level cut.
-/

namespace Conformance

/-- Name and identifier of a symbol. -/
def symbolOutline (t : SymbolTable) (s : SymbolId) : String := t.name s ++ "#" ++ toString s.val

/-- Sixteen hexadecimal digits. -/
def hexWord (bits : UInt64) : String :=
  let digits := Nat.toDigits 16 bits.toNat
  String.ofList (List.replicate (16 - digits.length) '0' ++ digits)

def Constant.outline : Constant → String
  | .unit => "Unit"
  | .null => "Null"
  | .boolean value => "Boolean " ++ if value then "true" else "false"
  | .char value => "Char " ++ toString value.toNat
  | .int value => "Int " ++ toString value
  | .long value => "Long " ++ toString value
  | .double bits => "Double " ++ hexWord bits
  | .str text => "Str " ++ text

def MethodFlags.bits (f : MethodFlags) : Nat :=
    (if f.implicit then 1 else 0) + if f.java then 2 else 0

def MethodFlags.ofBits (bits : Nat) : MethodFlags := ⟨bits.testBit 0, bits.testBit 1⟩

/-- Name of a type's constructor. -/
def Ty.kindName : Ty → String
  | .noType | .dangling _ => "NoType"
  | .noPrefix => "NoPrefix"
  | .error => "Error"
  | .wildcard => "Wildcard"
  | .this _ => "This"
  | .single .. => "Single"
  | .const _ => "Const"
  | .ref .. => "Ref"
  | .refined .. => "Refined"
  | .exist .. => "Exist"
  | .annotated .. => "Annot"
  | .boundedWildcard _ => "BWild"
  | .bounds .. => "Bounds"
  | .method .. => "Method"
  | .nullary _ => "Nullary"
  | .poly .. => "Poly"
  | .var _ => "TVar"
  | .notNull _ => "NotNull"

/-- The type without structure of a given constructor name. -/
def Ty.sentinel? (name : String) : Option Ty :=
  [.noType, .noPrefix, .error, .wildcard].find? fun ty => ty.kindName == name

/-- The type that a bare handle of a store names: the four without structure come first. -/
def Ty.ofHandle : Nat → Ty
  | 0 => .noType
  | 1 => .noPrefix
  | 2 => .error
  | 3 => .wildcard
  | n => .dangling n

/-- Every name of a constructor. -/
def Ty.kindNames : List String :=
  ["NoType", "NoPrefix", "Error", "Wildcard", "This", "Single", "Const", "Ref", "Refined", "Exist",
   "Annot", "BWild", "Bounds", "Method", "Nullary", "Poly", "TVar", "NotNull"]

def listOutline (items : List String) : String := "[" ++ ",".intercalate items ++ "]"

/-- Fields of a type's outline, given the outline of its components. -/
def outlineFields (sym : SymbolId → String) (sub : Ty → String) : Ty → List String
  | .this s => [sym s]
  | .single pre s => [sub pre, sym s]
  | .const value => [value.outline]
  | .ref pre s args => [sub pre, sym s, listOutline (args.map sub)]
  | .refined parents decls cls =>
    [listOutline (parents.map sub), listOutline (decls.map sym), sym cls]
  | .exist qs body => [listOutline (qs.map sym), sub body]
  | .annotated as body => [listOutline (as.map sym), sub body]
  | .boundedWildcard b => [sub b]
  | .bounds lo hi => [sub lo, sub hi]
  | .method ps r flags => [listOutline (ps.map sym), sub r, toString flags.bits]
  | .nullary r => [sub r]
  | .poly ps r => [listOutline (ps.map sym), sub r]
  | .var v => [toString v.val]
  | .notNull b => [sub b]
  | _ => []

def outlineUpTo (t : SymbolTable) : Nat → Ty → String
  | 0, _ => ".."
  | n + 1, ty =>
    match outlineFields (symbolOutline t) (outlineUpTo t n) ty with
    | [] => ty.kindName
    | fields => ty.kindName ++ "(" ++ ",".intercalate fields ++ ")"

def outline (t : SymbolTable) (ty : Ty) : String := outlineUpTo t 7 ty

end Conformance

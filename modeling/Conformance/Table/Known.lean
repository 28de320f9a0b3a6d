import Conformance.Ty.Basic

/-!
Symbols that every table holds, and their types. Their identifiers are fixed by
the order in which `SymbolTable.initial` enters them.
-/

namespace Conformance.Known

def rootClass : SymbolId := ⟨1⟩

def rootPackage : SymbolId := ⟨2⟩

def scalaClass : SymbolId := ⟨3⟩

def javaLangClass : SymbolId := ⟨7⟩

def any : SymbolId := ⟨9⟩

def object : SymbolId := ⟨10⟩

def anyRef : SymbolId := ⟨11⟩

def anyVal : SymbolId := ⟨12⟩

def nothing : SymbolId := ⟨13⟩

def null : SymbolId := ⟨14⟩

def singleton : SymbolId := ⟨15⟩

def notNull : SymbolId := ⟨16⟩

def int : SymbolId := ⟨17⟩

def long : SymbolId := ⟨18⟩

def double : SymbolId := ⟨19⟩

def boolean : SymbolId := ⟨20⟩

def char : SymbolId := ⟨21⟩

def unit : SymbolId := ⟨22⟩

def string : SymbolId := ⟨23⟩

/-- Names by which the symbols are called. -/
def named : List (String × SymbolId) :=
  [("none", .none), ("root", rootClass), ("root_package", rootPackage), ("scala", scalaClass),
   ("java_lang", javaLangClass), ("Any", any), ("AnyRef", anyRef), ("Object", object),
   ("AnyVal", anyVal), ("Nothing", nothing), ("Null", null), ("Singleton", singleton),
   ("NotNull", notNull), ("Int", int), ("Long", long), ("Double", double), ("Boolean", boolean),
   ("Char", char), ("Unit", unit), ("String", string)]

/-- Reference to a class of the package `scala`. -/
def scalaRef (s : SymbolId) : Ty := .ref (.this scalaClass) s []

/-- Reference to a class of the package `java.lang`. -/
def javaLangRef (s : SymbolId) : Ty := .ref (.this javaLangClass) s []

def anyType : Ty := scalaRef any

def anyRefType : Ty := scalaRef anyRef

def objectType : Ty := javaLangRef object

def anyValType : Ty := scalaRef anyVal

def nothingType : Ty := scalaRef nothing

def nullType : Ty := scalaRef null

/-- Class of a literal value. -/
def constantClass : Constant → SymbolId
  | .unit => unit
  | .null => null
  | .boolean _ => boolean
  | .char _ => char
  | .int _ => int
  | .long _ => long
  | .double _ => double
  | .str _ => string

/-- Type of a literal value's class. -/
def constantType : Constant → Ty
  | .str _ => javaLangRef string
  | c => scalaRef (constantClass c)

end Conformance.Known

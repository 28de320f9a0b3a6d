/-!
Types of a nominal, path-dependent language. Types share their parts, so a type
of many nodes may take little memory. Each type carries its size and a
fingerprint, by which most pairs of different types are told apart at once.
-/

namespace Conformance

/-- Name of a symbol in a table. Identifiers are handed out in order from 1;
0 names the absent symbol. -/
structure SymbolId where
  val : Nat
deriving DecidableEq, Hashable, Repr, Inhabited

namespace SymbolId

/-- The absent symbol. -/
def none : SymbolId := ⟨0⟩

/-- Any symbol but the absent one. -/
def isPresent (s : SymbolId) : Bool := decide (1 ≤ s.val)

end SymbolId

/-- Position of a type variable in the variable store. -/
structure VarId where
  val : Nat
deriving DecidableEq, Hashable, Repr, Inhabited

/-- Literal value of a constant type. Doubles are held by their bits, so a NaN
equals itself and the two zeros differ. -/
inductive Constant where
  | unit
  | null
  | boolean (value : Bool)
  | char (value : Char)
  | int (value : Int)
  | long (value : Int)
  | double (bits : UInt64)
  | str (text : String)
deriving DecidableEq, Repr, Inhabited

/-- Hash of a literal value. -/
def Constant.fingerprint : Constant → UInt64
  | .unit => 1
  | .null => 2
  | .boolean value => mixHash 3 (if value then 1 else 0)
  | .char value => mixHash 4 value.val.toUInt64
  | .int (.ofNat n) => mixHash 5 (hash n)
  | .int (.negSucc n) => mixHash 6 (hash n)
  | .long (.ofNat n) => mixHash 7 (hash n)
  | .long (.negSucc n) => mixHash 8 (hash n)
  | .double bits => mixHash 9 bits
  | .str text => mixHash 10 (hash text)

/-- Marks of a method type. A Java method accepts `Any` where it asks for
`Object`. -/
structure MethodFlags where
  implicit : Bool := false
  java : Bool := false
deriving DecidableEq, Hashable, Repr, Inhabited

/-- Types. Binders (`exist`, `method`, `poly`) and refinements name symbols of
a table, which hold the bounds and types of what is bound. -/
inductive Ty where
  | noType
  | noPrefix
  | error
  | wildcard
  /-- A type that was named but never entered: it has the structure of
  `noType` and is equal only to itself. -/
  | dangling (key : Nat)
  | this (sym : SymbolId)
  | single (pre : Ty) (sym : SymbolId)
  | const (value : Constant)
  | ref (pre : Ty) (sym : SymbolId) (args : List Ty)
  | refined (parents : List Ty) (decls : List SymbolId) (cls : SymbolId)
  | exist (quantified : List SymbolId) (body : Ty)
  | annotated (annotations : List SymbolId) (body : Ty)
  | boundedWildcard (bounds : Ty)
  | bounds (lo hi : Ty)
  | method (params : List SymbolId) (result : Ty) (flags : MethodFlags)
  | nullary (result : Ty)
  | poly (tparams : List SymbolId) (result : Ty)
  | var (id : VarId)
  | notNull (body : Ty)
with
  /-- Hash of the structure. -/
  @[computed_field] fingerprint : Ty → UInt64
    | .noType => 1
    | .noPrefix => 2
    | .error => 3
    | .wildcard => 4
    | .dangling key => mixHash 5 (hash key)
    | .this sym => mixHash 6 (hash sym)
    | .single pre sym => mixHash 7 (mixHash pre.fingerprint (hash sym))
    | .const value => mixHash 8 value.fingerprint
    | .ref pre sym args =>
      args.attach.foldl (fun h ⟨arg, _⟩ => mixHash h arg.fingerprint)
        (mixHash 9 (mixHash pre.fingerprint (hash sym)))
    | .refined parents decls cls =>
      parents.attach.foldl (fun h ⟨parent, _⟩ => mixHash h parent.fingerprint)
        (mixHash 10 (mixHash (hash decls) (hash cls)))
    | .exist quantified body => mixHash 11 (mixHash (hash quantified) body.fingerprint)
    | .annotated annotations body => mixHash 12 (mixHash (hash annotations) body.fingerprint)
    | .boundedWildcard bounds => mixHash 13 bounds.fingerprint
    | .bounds lo hi => mixHash 14 (mixHash lo.fingerprint hi.fingerprint)
    | .method params result flags =>
      mixHash 15 (mixHash (mixHash (hash params) (hash flags)) result.fingerprint)
    | .nullary result => mixHash 16 result.fingerprint
    | .poly tparams result => mixHash 17 (mixHash (hash tparams) result.fingerprint)
    | .var id => mixHash 18 (hash id)
    | .notNull body => mixHash 19 body.fingerprint
  /-- Number of nodes, those of a shared part once for each occurrence. -/
  @[computed_field] size : Ty → Nat
    | .single pre _ => 1 + pre.size
    | .ref pre _ args => args.attach.foldl (fun n ⟨arg, _⟩ => n + arg.size) (1 + pre.size)
    | .refined parents _ _ => parents.attach.foldl (fun n ⟨parent, _⟩ => n + parent.size) 1
    | .exist _ body => 1 + body.size
    | .annotated _ body => 1 + body.size
    | .boundedWildcard bounds => 1 + bounds.size
    | .bounds lo hi => 1 + lo.size + hi.size
    | .method _ result _ => 1 + result.size
    | .nullary result => 1 + result.size
    | .poly _ result => 1 + result.size
    | .notNull body => 1 + body.size
    | _ => 1
deriving Repr, Inhabited

end Conformance

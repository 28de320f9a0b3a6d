import Conformance.Intern.Pool
import Conformance.Limits
import Conformance.Ty.Basic

/-!
Type nodes stored once and addressed by handles. Handles 0 to 3 are the types
without structure, which are never stored. For the others, the handle less 4
has the shard in its low five bits and the place there in the rest, all in
32-bit words.
-/

namespace Conformance

structure TypeHandle where
  val : Nat
deriving DecidableEq, Hashable, Repr, Inhabited

namespace TypeHandle

def noType : TypeHandle := ⟨0⟩

def noPrefix : TypeHandle := ⟨1⟩

def error : TypeHandle := ⟨2⟩

def wildcard : TypeHandle := ⟨3⟩

/-- The handle of a type without structure, by name. -/
def sentinel? : String → Option TypeHandle
  | "NoType" => some noType
  | "NoPrefix" => some noPrefix
  | "Error" => some error
  | "Wildcard" => some wildcard
  | _ => none

/-- First handle of a stored node. -/
def firstStored : Nat := 4

def isSentinel (h : TypeHandle) : Bool := decide (h.val < firstStored)

def isPermissive (h : TypeHandle) : Bool := h == error || h == wildcard

def isPresent (h : TypeHandle) : Bool := h != noType

def ofAddress (a : Address 32) : TypeHandle :=
  ⟨(firstStored + (a.place * 32 + a.shard.val)) % UInt32.size⟩

def address (h : TypeHandle) : Address 32 :=
  ⟨⟨(h.val - firstStored) % 32, Nat.mod_lt _ (by decide)⟩, (h.val - firstStored) / 32⟩

end TypeHandle

structure TypeListId where
  val : Nat
deriving DecidableEq, Hashable, Repr, Inhabited

structure SymbolListId where
  val : Nat
deriving DecidableEq, Hashable, Repr, Inhabited

instance : Hashable Constant := ⟨Constant.fingerprint⟩

/-- One level of a type, its components given by handles. -/
inductive TypeNode where
  | noType
  | noPrefix
  | error
  | wildcard
  | this (sym : SymbolId)
  | single (pre : TypeHandle) (sym : SymbolId)
  | const (value : Constant)
  | ref (pre : TypeHandle) (sym : SymbolId) (args : TypeListId)
  | refined (parents : TypeListId) (decls : SymbolListId) (cls : SymbolId)
  | exist (quantified : SymbolListId) (body : TypeHandle)
  | annotated (annotations : SymbolListId) (body : TypeHandle)
  | boundedWildcard (bounds : TypeHandle)
  | bounds (lo hi : TypeHandle)
  | method (params : SymbolListId) (result : TypeHandle) (flags : MethodFlags)
  | nullary (result : TypeHandle)
  | poly (tparams : SymbolListId) (result : TypeHandle)
  | var (id : VarId)
  | notNull (body : TypeHandle)
deriving DecidableEq, Hashable, Repr, Inhabited

namespace TypeNode

def sentinel? : TypeNode → Option TypeHandle
  | .noType => some .noType
  | .noPrefix => some .noPrefix
  | .error => some .error
  | .wildcard => some .wildcard
  | _ => none

def ofSentinel? (h : TypeHandle) : Option TypeNode :=
  if h = .noType then some .noType
  else if h = .noPrefix then some .noPrefix
  else if h = .error then some .error
  else if h = .wildcard then some .wildcard
  else none

end TypeNode

structure TypeStore where
  pool : Pool TypeNode 32 := .empty
  typeLists : ListPool TypeHandle := {}
  symbolLists : ListPool SymbolId := {}

namespace TypeStore

/-- The most that a shard may hold when it takes a new node. -/
def shardLimit : Nat := (Limits.word - TypeHandle.firstStored) / 32

/-- Handle of a node, entered if it was not there; a full shard gives `error`. -/
def intern (shardOf : TypeNode → Fin 32) (st : TypeStore) (d : TypeNode) : TypeHandle × TypeStore :=
  match d.sentinel? with
  | some h => (h, st)
  | none =>
    match st.pool.intern shardLimit (shardOf d) d with
    | (some a, pool) => (.ofAddress a, { st with pool })
    | (none, pool) => (.error, { st with pool })

def lookup? (st : TypeStore) (h : TypeHandle) : Option TypeNode :=
  match TypeNode.ofSentinel? h with
  | some d => some d
  | none => st.pool.get? h.address

/-- Unknown handles read as `noType`. -/
def node (st : TypeStore) (h : TypeHandle) : TypeNode := (st.lookup? h).getD .noType

def internTypes (st : TypeStore) (xs : List TypeHandle) : TypeListId × TypeStore :=
  let (id, typeLists) := st.typeLists.intern xs
  (⟨id⟩, { st with typeLists })

def internSymbols (st : TypeStore) (xs : List SymbolId) : SymbolListId × TypeStore :=
  let (id, symbolLists) := st.symbolLists.intern xs
  (⟨id⟩, { st with symbolLists })

def types (st : TypeStore) (id : TypeListId) : List TypeHandle := st.typeLists.get id.val

def symbols (st : TypeStore) (id : SymbolListId) : List SymbolId := st.symbolLists.get id.val

/-- Stored nodes and the four sentinels. -/
def size (st : TypeStore) : Nat := TypeHandle.firstStored + st.pool.size

/-- Nothing but the sentinels. -/
def isEmpty (st : TypeStore) : Bool := decide (st.size ≤ TypeHandle.firstStored)

section Build

variable (shardOf : TypeNode → Fin 32) (st : TypeStore)

def ref (pre : TypeHandle) (sym : SymbolId) (args : List TypeHandle) : TypeHandle × TypeStore :=
  let (args, st) := st.internTypes args
  st.intern shardOf (.ref pre sym args)

def refined (parents : List TypeHandle) (decls : List SymbolId) (cls : SymbolId) :
    TypeHandle × TypeStore :=
  let (parents, st) := st.internTypes parents
  let (decls, st) := st.internSymbols decls
  st.intern shardOf (.refined parents decls cls)

/-- No quantifier, no wrapper. -/
def existential (quantified : List SymbolId) (body : TypeHandle) : TypeHandle × TypeStore :=
  if quantified.isEmpty then (body, st)
  else
    let (quantified, st) := st.internSymbols quantified
    st.intern shardOf (.exist quantified body)

/-- No annotation, no wrapper. -/
def annotate (annotations : List SymbolId) (body : TypeHandle) : TypeHandle × TypeStore :=
  if annotations.isEmpty then (body, st)
  else
    let (annotations, st) := st.internSymbols annotations
    st.intern shardOf (.annotated annotations body)

/-- No type parameter, no wrapper. -/
def lambda (tparams : List SymbolId) (result : TypeHandle) : TypeHandle × TypeStore :=
  if tparams.isEmpty then (result, st)
  else
    let (tparams, st) := st.internSymbols tparams
    st.intern shardOf (.poly tparams result)

def method (params : List SymbolId) (result : TypeHandle) (flags : MethodFlags) :
    TypeHandle × TypeStore :=
  let (params, st) := st.internSymbols params
  st.intern shardOf (.method params result flags)

/-- A wildcard over bounds, which are stored too. -/
def boundedWildcard (lo hi : TypeHandle) : TypeHandle × TypeStore :=
  let (bounds, st) := st.intern shardOf (.bounds lo hi)
  st.intern shardOf (.boundedWildcard bounds)

end Build

end TypeStore

end Conformance

import Conformance.Intern.Pool
import Conformance.Limits

/-!
Names stored once and addressed by handles. The low four bits of a handle are
its shard, the rest its place there. The empty name is handle 0.
-/

namespace Conformance

structure NameHandle where
  val : Nat
deriving DecidableEq, Repr, Inhabited

namespace NameHandle

def empty : NameHandle := ⟨0⟩

def isEmpty (h : NameHandle) : Bool := h.val == 0

def ofAddress (a : Address 16) : NameHandle := ⟨a.place * 16 + a.shard.val⟩

def address (h : NameHandle) : Address 16 := ⟨⟨h.val % 16, Nat.mod_lt _ (by decide)⟩, h.val / 16⟩

end NameHandle

structure NameStore where
  pool : Pool String 16

namespace NameStore

/-- Names that every store holds from the start. -/
def wellKnown : List String :=
  ["<root>", "<empty>", "<refinement>", "<none>", "scala", "java", "lang", "Any", "AnyRef",
   "AnyVal", "Object", "Nothing", "Null", "Singleton", "NotNull", "Int", "Long", "Double",
   "Boolean", "Char", "Unit", "String"]

/-- The most that a shard may hold when it takes a new name. -/
def shardLimit : Nat := Limits.word / 16

/-- Handle of `s`, entered if it was not there; a full shard gives the empty name. -/
def intern (shardOf : String → Fin 16) (st : NameStore) (s : String) : NameHandle × NameStore :=
  if s.isEmpty then (.empty, st)
  else match st.pool.intern shardLimit (shardOf s) s with
    | (some a, pool) => (.ofAddress a, ⟨pool⟩)
    | (none, pool) => (.empty, ⟨pool⟩)

/-- The store with the empty name alone, at handle 0. -/
def blank : NameStore := ⟨Pool.empty.push 0 "" (by simp [Pool.empty, Shard.empty, Vector.get])⟩

/-- The store with the empty name and the well-known names. -/
def initial (shardOf : String → Fin 16) : NameStore :=
  wellKnown.foldl (fun st s => (intern shardOf st s).2) blank

/-- Handle of `s` if it is there. -/
def lookup? (shardOf : String → Fin 16) (st : NameStore) (s : String) : Option NameHandle :=
  if s.isEmpty then some .empty
  else (st.pool.find? (shardOf s) s).map .ofAddress

def resolve? (st : NameStore) (h : NameHandle) : Option String := st.pool.get? h.address

/-- Unknown handles read as the empty name. -/
def resolve (st : NameStore) (h : NameHandle) : String := (st.resolve? h).getD ""

def size (st : NameStore) : Nat := st.pool.size

/-- Nothing but the empty name. -/
def isEmpty (st : NameStore) : Bool := decide (st.size ≤ 1)

end NameStore

end Conformance

import Std.Data.HashMap.Lemmas

/-!
Pools that store each value once. A shard keeps its values in the order in which
they were entered and, the other way round, the place of each. A sharded pool
spreads its values over `n` shards by an arbitrary assignment; a value's address
is its shard and its place in that shard.
-/

namespace Conformance

/-- Values by place and places by value, inverse to each other. -/
structure Shard (α : Type) [DecidableEq α] [Hashable α] where
  items : Array α
  places : Std.HashMap α Nat
  inverse : ∀ (x : α) (k : Nat), places[x]? = some k ↔ items[k]? = some x

namespace Shard

variable {α : Type} [DecidableEq α] [Hashable α]

def empty : Shard α := ⟨#[], ∅, by simp⟩

/-- A value that is not there yet takes the next place. -/
def push (s : Shard α) (x : α) (new : s.places[x]? = none) : Shard α where
  items := s.items.push x
  places := s.places.insert x s.items.size
  inverse y k := by
    have known := s.inverse y k
    rw [Std.HashMap.getElem?_insert, Array.getElem?_push]
    by_cases next : k = s.items.size
    · subst next
      have absent : s.places[y]? ≠ some s.items.size := by simp [known]
      by_cases same : x = y <;> simp [same, absent]
    · by_cases same : x = y
      · subst same
        simp [next, Ne.symm next, ← known, new]
      · simp [next, same, known]

end Shard

structure Address (n : Nat) where
  shard : Fin n
  place : Nat
deriving DecidableEq, Repr

structure Pool (α : Type) [DecidableEq α] [Hashable α] (n : Nat) where
  shards : Vector (Shard α) n

namespace Pool

variable {α : Type} [DecidableEq α] [Hashable α] {n : Nat}

def empty : Pool α n := ⟨Vector.replicate n .empty⟩

def size (p : Pool α n) : Nat := p.shards.toList.foldl (fun n shard => n + shard.items.size) 0

def get? (p : Pool α n) (a : Address n) : Option α := (p.shards.get a.shard).items[a.place]?

def push (p : Pool α n) (i : Fin n) (x : α) (new : (p.shards.get i).places[x]? = none) : Pool α n :=
  ⟨p.shards.set i ((p.shards.get i).push x new)⟩

def find? (p : Pool α n) (i : Fin n) (x : α) : Option (Address n) :=
  (p.shards.get i).places[x]?.map (⟨i, ·⟩)

/-- The address of `x`, entered if it was not there. A shard that already holds
more than `limit` values takes no new one. -/
def intern (p : Pool α n) (limit : Nat) (i : Fin n) (x : α) : Option (Address n) × Pool α n :=
  match known : (p.shards.get i).places[x]? with
  | some place => (some ⟨i, place⟩, p)
  | none =>
    let place := (p.shards.get i).items.size
    if limit < place then (none, p) else (some ⟨i, place⟩, p.push i x known)

end Pool

/-- Lists stored once. The empty list is the first. -/
structure ListPool (α : Type) [DecidableEq α] [Hashable α] where
  shard : Shard (List α) := Shard.empty.push [] (by simp [Shard.empty])

namespace ListPool

variable {α : Type} [DecidableEq α] [Hashable α]

def lists (p : ListPool α) : Array (List α) := p.shard.items

/-- Unknown positions read as the empty list. -/
def get (p : ListPool α) (id : Nat) : List α := p.lists.getD id []

/-- Position of `xs` as a 32-bit word, entered if it was not there. -/
def intern (p : ListPool α) (xs : List α) : Nat × ListPool α :=
  if xs.isEmpty then (0, p)
  else match known : p.shard.places[xs]? with
    | some i => (i % UInt32.size, p)
    | none => (p.lists.size % UInt32.size, ⟨p.shard.push xs known⟩)

end ListPool

end Conformance

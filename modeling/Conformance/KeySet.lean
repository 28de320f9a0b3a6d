import Std.Data.HashSet.Lemmas
import Conformance.Shortcut

/-!
Finite sets of keys. `elems` lists the members, the newest first, and says what
the set is; `index` answers the question whether a key is a member.
-/

namespace Conformance

structure KeySet (κ : Type) [DecidableEq κ] [Hashable κ] where
  elems : List κ
  index : Std.HashSet κ
  nodup : elems.Nodup
  index_contains : ∀ k, index.contains k = elems.contains k

namespace KeySet

variable {κ : Type} [DecidableEq κ] [Hashable κ]

def empty : KeySet κ := ⟨[], ∅, .nil, by simp⟩

instance : Inhabited (KeySet κ) := ⟨empty⟩

instance [Repr κ] : Repr (KeySet κ) := ⟨fun s n => reprPrec s.elems n⟩

def size (s : KeySet κ) : Nat := s.elems.length

def contains (s : KeySet κ) (k : κ) : Bool :=
  answeredBy (s.index.contains k) (fun _ => s.elems.contains k) (s.index_contains k)

theorem contains_iff {s : KeySet κ} {k : κ} : s.contains k = true ↔ k ∈ s.elems := by
  simp [contains]

def insert (s : KeySet κ) (k : κ) : KeySet κ :=
  if h : s.contains k then s
  else
    { elems := k :: s.elems
      index := s.index.insert k
      nodup := List.nodup_cons.2 ⟨fun hk => h (contains_iff.2 hk), s.nodup⟩
      index_contains := fun j => by
        rw [Std.HashSet.contains_insert, s.index_contains, List.contains_cons, Bool.beq_comm] }

def erase (s : KeySet κ) (k : κ) : KeySet κ where
  elems := s.elems.erase k
  index := s.index.erase k
  nodup := s.nodup.erase k
  index_contains j := by
    rw [Std.HashSet.contains_erase, s.index_contains, Bool.eq_iff_iff, Bool.and_eq_true,
      List.contains_iff_mem, List.contains_iff_mem, s.nodup.mem_erase_iff]
    simp [ne_comm]

@[simp] theorem elems_empty : (empty : KeySet κ).elems = [] := rfl

theorem elems_insert (s : KeySet κ) (k : κ) :
    (s.insert k).elems = if k ∈ s.elems then s.elems else k :: s.elems := by
  by_cases h : k ∈ s.elems <;> simp [insert, contains_iff, h]

@[simp] theorem elems_erase (s : KeySet κ) (k : κ) : (s.erase k).elems = s.elems.erase k := rfl

end KeySet

end Conformance

import Mathlib.Data.Fintype.Card
import Mathlib.Logic.Function.Iterate
import Conformance.Proofs.Scope.Basic

/-! # Owners

The walk along owners takes more steps in a larger table. But a symbol that is met at all is met
within as many steps as the table has records: an owner is read from a record, so the symbols before
the first repetition have different records. -/

namespace Conformance

/-! ## Chains of owners -/

namespace SymbolTable

variable {t : SymbolTable}

theorem mem_ownersUpTo {n : Nat} {s c : SymbolId} : c ∈ t.ownersUpTo n s ↔
    ∃ i < n, t.owner^[i] s = c ∧ ∀ j ≤ i, (t.owner^[j] s).isPresent = true := by
  induction n generalizing s with
  | zero => simp [ownersUpTo]
  | succ n ih =>
    rw [ownersUpTo]
    split
    next present =>
      rw [List.mem_cons, ih]
      constructor
      · rintro (rfl | ⟨i, hi, met, before⟩)
        · exact ⟨0, by omega, rfl, fun j hj => by rw [Nat.le_zero.1 hj]; exact present⟩
        · refine ⟨i + 1, by omega, met, fun j hj => ?_⟩
          cases j with
          | zero => exact present
          | succ j => exact before j (by omega)
      · rintro ⟨i, hi, met, before⟩
        cases i with
        | zero => exact .inl met.symm
        | succ i => exact .inr ⟨i, by omega, met, fun j hj => before (j + 1) (by omega)⟩
    next absent =>
      simp only [List.not_mem_nil, false_iff]
      rintro ⟨i, -, -, before⟩
      exact absent (before 0 (Nat.zero_le i))

theorem isPresent_eq_false {s : SymbolId} : s.isPresent = false ↔ s = .none := by
  cases s
  simp [SymbolId.isPresent, SymbolId.none]

/-- What is met on the way up is met within as many steps as there are records. -/
theorem mem_ownerChain {n : Nat} {s c : SymbolId} (h : c ∈ t.ownersUpTo n s) :
    c ∈ t.ownerChain s := by
  obtain ⟨i, -, met, before⟩ := mem_ownersUpTo.1 h
  rcases Nat.eq_zero_or_pos t.size with empty | ht
  · -- in an empty table every symbol is owned by the absent one
    have first : i = 0 := by
      by_contra later
      have := before 1 (by omega)
      simp [owner, get, Array.eq_empty_of_size_eq_zero empty,
        SymbolRecord.absent, isPresent_eq_false.2 rfl] at this
    exact mem_ownersUpTo.2 ⟨i, by omega, met, before⟩
  have somewhere : ∃ i, t.owner^[i] s = c := ⟨i, met⟩
  classical
  let first := Nat.find somewhere
  have there : t.owner^[first] s = c := Nat.find_spec somewhere
  have earliest : first ≤ i := Nat.find_min' somewhere met
  -- no symbol is met twice before the first time that `c` is met
  have once : ∀ a b, a < b → b ≤ first → t.owner^[a] s ≠ t.owner^[b] s := by
    intro a b hab hb same
    have again : t.owner^[first - (b - a)] s = c := by
      have up : first - (b - a) = (first - b) + a := by omega
      rw [up, Function.iterate_add_apply, same, ← Function.iterate_add_apply,
        Nat.sub_add_cancel hb, there]
    exact Nat.find_min somewhere (show first - (b - a) < first by omega) again
  let place (c : SymbolId) : Fin t.size := if h : c.val < t.size then ⟨c.val, h⟩ else ⟨0, ht⟩
  have read : ∀ c, t.get c = t.get ⟨(place c).val⟩ := by
    intro c
    by_cases hc : c.val < t.size
    · simp [place, hc]
    · rw [get_of_size_le (Nat.le_of_not_lt hc)]
      simp [place, hc]
      rfl
  have injective : Function.Injective fun k : Fin first => place (t.owner^[k.val] s) := by
    intro a b (hab : place _ = place _)
    have same : t.owner^[a.val + 1] s = t.owner^[b.val + 1] s := by
      rw [Function.iterate_succ_apply', Function.iterate_succ_apply',
        owner, owner, read, read (t.owner^[b.val] s), hab]
    rcases Nat.lt_trichotomy a.val b.val with lt | eq | gt
    · exact absurd same (once _ _ (by omega) (by omega))
    · exact Fin.ext eq
    · exact absurd same.symm (once _ _ (by omega) (by omega))
  have few : first ≤ t.size := by simpa using Fintype.card_le_of_injective _ injective
  exact mem_ownersUpTo.2 ⟨first, by omega, there, fun j hj => before j (Nat.le_trans hj earliest)⟩

/-- Nesting is following owners, none of which is absent. -/
theorem isNestedIn_iff {s o : SymbolId} : t.isNestedIn s o = true ↔
    o = .none ∨ ∃ i, t.owner^[i] s = o ∧ ∀ j ≤ i, (t.owner^[j] s).isPresent = true := by
  rw [isNestedIn, Bool.or_eq_true, Bool.not_eq_true', isPresent_eq_false, List.contains_iff_mem]
  refine or_congr_right ⟨fun h => ?_, fun ⟨i, met, before⟩ => ?_⟩
  · obtain ⟨i, -, h⟩ := mem_ownersUpTo.1 h
    exact ⟨i, h⟩
  · exact mem_ownerChain (mem_ownersUpTo.2 ⟨i, Nat.lt_succ_self i, met, before⟩)

theorem ownersUpTo_isPrefix {n m : Nat} (h : n ≤ m)
    (s : SymbolId) : t.ownersUpTo n s <+: t.ownersUpTo m s := by
  induction n generalizing m s with
  | zero => exact List.nil_prefix
  | succ n ih =>
    obtain ⟨m, rfl⟩ : ∃ k, m = k + 1 := ⟨m - 1, by omega⟩
    rw [ownersUpTo, ownersUpTo]
    split
    · exact (List.prefix_cons_inj _).2 (ih (by omega) _)
    · exact List.prefix_rfl

theorem find?_ownersUpTo {n : Nat} (hn : t.size + 1 ≤ n) (s : SymbolId) (p : SymbolId → Bool) :
    (t.ownersUpTo n s).find? p = (t.ownerChain s).find? p := by
  obtain ⟨rest, split⟩ := ownersUpTo_isPrefix hn s
  rw [← split, List.find?_append]
  cases found : (t.ownerChain s).find? p with
  | some c =>
    rw [ownerChain] at found
    rw [found]
    rfl
  | none =>
    have none : rest.find? p = none := by
      refine List.find?_eq_none.2 fun c hc => ?_
      have met : c ∈ t.ownersUpTo n s := by
        rw [← split]
        exact List.mem_append_right _ hc
      exact List.find?_eq_none.1 found c (mem_ownerChain met)
    rw [ownerChain] at found
    rw [found, none]
    rfl

/-! ## What a finder registers -/

/-- The symbol that a type registers itself. -/
def localOwner? (t : SymbolTable) : Ty → Option SymbolId
  | .this s => some s
  | .ref .noPrefix s _ | .single .noPrefix s => some (t.owner s)
  | _ => none

/-- The components that a finder goes to. -/
def localParts (t : SymbolTable) : Ty → List Ty
  | .ref .noPrefix _ args => args
  | .single .noPrefix _ => []
  | ty => t.children ty

theorem localParts_subset {ty c : Ty} (h : c ∈ t.localParts ty) : c ∈ t.children ty := by
  unfold localParts at h
  split at h
  · exact List.mem_cons_of_mem _ h
  · cases h
  · exact h

end SymbolTable

namespace OwnerFinder

/-- The finder with a type noted and the symbol that it registers. -/
def note (t : SymbolTable) (f : OwnerFinder) (ty : Ty) : OwnerFinder :=
  let noted := { f with visited := f.visited.insert ty }
  (t.localOwner? ty).elim noted (noted.register t)

/-- A type that the finder has been at is passed over; another is noted before the components are
gone to. -/
theorem traverse_succ (fuel : Nat) (f : OwnerFinder) (ty : Ty) : traverse (fuel + 1) f ty = (do
    let ty ← normalize fuel ty
    if f.visited.contains ty then return f
    let t ← get
    (t.localParts ty).foldlM (traverse fuel) (f.note t ty)) := by
  rw [traverse]
  refine congrArg _ (funext fun ty => ?_)
  cases ty with
  | single pre s | ref pre s args => cases pre <;> rfl
  | _ => rfl

end OwnerFinder

end Conformance

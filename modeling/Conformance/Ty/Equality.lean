import Std.Data.HashMap
import Conformance.Shortcut
import Conformance.Ty.Structure

/-!
Equality of types is equality of structure, as `Ty.same` says. Evaluation must
not walk a part each time that it occurs, so `Ty.compare` remembers the pairs
that it has found equal and stops at a part that both sides store in one place.
Its answer is that of `Ty.same`; what it remembers depends on where the types
are stored and cannot be observed.
-/

namespace Conformance

namespace Ty

mutual
/-- Structural equality test. -/
def same : Ty → Ty → Bool
  | .noType, .noType => true
  | .noPrefix, .noPrefix => true
  | .error, .error => true
  | .wildcard, .wildcard => true
  | .dangling k, .dangling k' => k == k'
  | .this s, .this s' => s == s'
  | .single p s, .single p' s' => s == s' && same p p'
  | .const v, .const v' => v == v'
  | .ref p s as, .ref p' s' as' => s == s' && same p p' && sameList as as'
  | .refined ps ds c, .refined ps' ds' c' => c == c' && ds == ds' && sameList ps ps'
  | .exist qs b, .exist qs' b' => qs == qs' && same b b'
  | .annotated as b, .annotated as' b' => as == as' && same b b'
  | .boundedWildcard b, .boundedWildcard b' => same b b'
  | .bounds l h, .bounds l' h' => same l l' && same h h'
  | .method ps r f, .method ps' r' f' => ps == ps' && f == f' && same r r'
  | .nullary r, .nullary r' => same r r'
  | .poly ps r, .poly ps' r' => ps == ps' && same r r'
  | .var v, .var v' => v == v'
  | .notNull b, .notNull b' => same b b'
  | _, _ => false

def sameList : List Ty → List Ty → Bool
  | [], [] => true
  | a :: as, b :: bs => same a b && sameList as bs
  | _, _ => false
end

mutual
theorem same_iff : ∀ (a b : Ty), same a b = true ↔ a = b
  | .noType, b => by cases b <;> simp [same]
  | .noPrefix, b => by cases b <;> simp [same]
  | .error, b => by cases b <;> simp [same]
  | .wildcard, b => by cases b <;> simp [same]
  | .dangling _, b => by cases b <;> simp [same]
  | .this _, b => by cases b <;> simp [same]
  | .single p _, b => by cases b <;> simp [same, same_iff p, and_comm]
  | .const _, b => by cases b <;> simp [same]
  | .ref p _ as, b => by
    cases b <;> simp [same, same_iff p, sameList_iff as]
    simp only [and_assoc, and_left_comm]
  | .refined ps _ _, b => by
    cases b <;> simp [same, sameList_iff ps]
    constructor <;> (intro h; simp [h])
  | .exist _ r, b => by cases b <;> simp [same, same_iff r]
  | .annotated _ r, b => by cases b <;> simp [same, same_iff r]
  | .boundedWildcard r, b => by cases b <;> simp [same, same_iff r]
  | .bounds l h, b => by cases b <;> simp [same, same_iff l, same_iff h]
  | .method _ r _, b => by
    cases b <;> simp [same, same_iff r]
    constructor <;> (intro h; simp [h])
  | .nullary r, b => by cases b <;> simp [same, same_iff r]
  | .poly _ r, b => by cases b <;> simp [same, same_iff r]
  | .var _, b => by cases b <;> simp [same]
  | .notNull r, b => by cases b <;> simp [same, same_iff r]

theorem sameList_iff : ∀ (as bs : List Ty), sameList as bs = true ↔ as = bs
  | [], bs => by cases bs <;> simp [sameList]
  | a :: as, bs => by cases bs <;> simp [sameList, same_iff a, sameList_iff as]
end

/-- Types directly below the top. -/
def components : Ty → List Ty
  | .single pre _ => [pre]
  | .ref pre _ args => pre :: args
  | .refined parents _ _ => parents
  | .exist _ body => [body]
  | .annotated _ body => [body]
  | .boundedWildcard b => [b]
  | .bounds lo hi => [lo, hi]
  | .method _ result _ => [result]
  | .nullary result => [result]
  | .poly _ result => [result]
  | .notNull body => [body]
  | _ => []

/-- Equality test for all but the components. -/
def sameTop : Ty → Ty → Bool
  | .noType, .noType => true
  | .noPrefix, .noPrefix => true
  | .error, .error => true
  | .wildcard, .wildcard => true
  | .dangling k, .dangling k' => k == k'
  | .this s, .this s' => s == s'
  | .single _ s, .single _ s' => s == s'
  | .const v, .const v' => v == v'
  | .ref _ s _, .ref _ s' _ => s == s'
  | .refined _ ds c, .refined _ ds' c' => c == c' && ds == ds'
  | .exist qs _, .exist qs' _ => qs == qs'
  | .annotated as _, .annotated as' _ => as == as'
  | .boundedWildcard _, .boundedWildcard _ => true
  | .bounds _ _, .bounds _ _ => true
  | .method ps _ f, .method ps' _ f' => ps == ps' && f == f'
  | .nullary _, .nullary _ => true
  | .poly ps _, .poly ps' _ => ps == ps'
  | .var v, .var v' => v == v'
  | .notNull _, .notNull _ => true
  | _, _ => false

theorem same_eq (a b : Ty) :
    same a b = (sameTop a b && sameList a.components b.components) := by
  cases a <;> cases b <;> simp [same, sameTop, sameList, components, Bool.and_assoc]

theorem same_eq_false {a b : Ty} (h : a.fingerprint ≠ b.fingerprint) : same a b = false := by
  rw [Bool.eq_false_iff, ne_eq, same_iff]
  exact fun e => h (congrArg fingerprint e)

/-- The test that looks first whether both sides are stored in one place. -/
def sameStored (a b : Ty) : Bool := withPtrEq a b (fun _ => same a b) (same_iff a b).2

theorem sameStored_iff {a b : Ty} : sameStored a b = true ↔ a = b := same_iff a b

/-- A pair of equal types. -/
structure Twin where
  left : Ty
  right : Ty
  eq : left = right

/-- Pairs found equal, under keys made from the places where they are stored. -/
abbrev Twins := Std.HashMap UInt64 Twin

namespace Twins

/-- Is this pair the one under the key? -/
def holds (found : Twins) (key : UInt64) (a b : Ty) : Bool :=
  match found[key]? with
  | some t => sameStored t.left a && sameStored t.right b
  | none => false

theorem eq_of_holds {found : Twins} {key : UInt64} {a b : Ty} (h : found.holds key a b = true) :
    a = b := by
  unfold holds at h
  split at h
  · rename_i t _
    rw [Bool.and_eq_true, sameStored_iff, sameStored_iff] at h
    rw [← h.1, ← h.2, t.eq]
  · cases h

end Twins

/-- The answer `p` and the pairs found on the way, of which nothing but the
answer can be observed. -/
abbrev Verdict (p : Bool) := Squash ({ r : Bool // r = p } × Twins)

/-- Compare lists by a comparison of their elements. -/
def compareAll (cmp : (a b : Ty) → Twins → Verdict (same a b)) :
    (as bs : List Ty) → Twins → Verdict (sameList as bs)
  | [], [], found => .mk (⟨true, by rw [sameList]⟩, found)
  | a :: as, b :: bs, found => (cmp a b found).lift fun (r, found) =>
    if h : r.val then
      (compareAll cmp as bs found).lift fun (r', found) =>
        .mk (⟨r', by rw [sameList, ← r.property, h, Bool.true_and, r'.property]⟩, found)
    else .mk (⟨false, by rw [sameList, ← r.property, Bool.eq_false_iff.2 h, Bool.false_and]⟩, found)
  | [], _ :: _, found => .mk (⟨false, by simp [sameList]⟩, found)
  | _ :: _, [], found => .mk (⟨false, by simp [sameList]⟩, found)

/-- Has the type two components that have components? Only below such a type
can a part occur twice. -/
def branches (ty : Ty) : Bool :=
  match ty.components.filter (!·.components.isEmpty) with
  | _ :: _ :: _ => true
  | _ => false

/-- Types with at most so many nodes are compared node by node. -/
def smallSize : Nat := 64

/-- Compare types, the parts more than `n` levels down node by node. -/
def compare : Nat → (a b : Ty) → Twins → Verdict (same a b)
  | 0, a, b, found => .mk (⟨same a b, rfl⟩, found)
  | n + 1, a, b, found =>
    withPtrAddr a (fun place => withPtrAddr b (fun place' =>
      if place == place' then .mk (⟨sameStored a b, rfl⟩, found)
      else
        if hash : a.fingerprint ≠ b.fingerprint then .mk (⟨false, (same_eq_false hash).symm⟩, found)
      else if a.size ≤ smallSize then .mk (⟨same a b, rfl⟩, found)
      else
        let key := mixHash place.toUInt64 place'.toUInt64
        let branches := a.branches
        if known : branches && found.holds key a b then
          .mk (⟨true, ((same_iff a b).2 (Twins.eq_of_holds (Bool.and_eq_true_iff.1 known).2)).symm⟩,
            found)
        else if top : sameTop a b then
          (compareAll (compare n) a.components b.components found).lift fun (r, found) =>
            if all : r.val then
              have eq : same a b = true := by rw [same_eq, top, ← r.property, all, Bool.true_and]
              .mk (⟨true, eq.symm⟩,
                if branches then found.insert key ⟨a, b, (same_iff a b).1 eq⟩ else found)
            else
              .mk (⟨false, by
                rw [same_eq, ← r.property, Bool.eq_false_iff.2 all, Bool.and_false]⟩, found)
        else .mk (⟨false, by rw [same_eq, Bool.eq_false_iff.2 top, Bool.false_and]⟩, found))
      fun _ _ => Subsingleton.elim _ _) fun _ _ => Subsingleton.elim _ _

instance {p : Bool} : Subsingleton { r : Bool // r = p } :=
  ⟨fun r r' => Subtype.ext (r.property.trans r'.property.symm)⟩

/-- The test by `compare`. -/
def sameCompared (a b : Ty) : { r : Bool // r = same a b } :=
  (compare a.size a b ∅).lift fun (r, _) => r

/-- The test by place and fingerprint first, then by `compare`. -/
def sameQuick (a b : Ty) : Bool :=
  withPtrEq a b (fun _ => a.fingerprint == b.fingerprint && (sameCompared a b).val)
    (by rintro rfl; simp [(sameCompared a a).property, same_iff])

theorem sameQuick_eq (a b : Ty) : sameQuick a b = same a b := by
  rw [sameQuick, withPtrEq, (sameCompared a b).property]
  by_cases h : a.fingerprint = b.fingerprint
  · rw [beq_iff_eq.2 h, Bool.true_and]
  · rw [beq_eq_false_iff_ne.2 h, Bool.false_and, same_eq_false h]

instance : DecidableEq Ty := fun a b =>
  decidable_of_iff (answeredBy (sameQuick a b) (fun _ => same a b) (sameQuick_eq a b) = true)
    (by simp [same_iff])

instance : Hashable Ty := ⟨fingerprint⟩

end Ty

end Conformance

import Conformance.Proofs.Classes.Transitivity
import Conformance.Proofs.Scope.Basic

/-! # Checking that a table is plain

A table of at most 60 symbols that declares each class after its parents is plain if each parent is
well formed. With one parent at most, a class reaches each base class at one instantiation. -/

namespace Conformance

namespace SymbolTable

variable (t : SymbolTable) {ps : List SymbolId}

instance (p : SymbolId) : Decidable (t.IsPackage p) :=
  decidable_of_iff (t.kind p = .packageClass ∧ (t.flags p).has .package = true)
    ⟨fun h => ⟨h.1, h.2⟩, fun h => ⟨h.kind, h.flag⟩⟩

instance (c : SymbolId) : Decidable (t.IsPlainClass c) :=
  decidable_of_iff (c.isPresent = true ∧ t.kind c = .plainClass ∧ t.IsPackage (t.owner c) ∧
      c ≠ Known.singleton ∧ c ≠ Known.notNull)
    ⟨fun h => ⟨h.1, h.2.1, h.2.2.1, h.2.2.2.1, h.2.2.2.2⟩,
      fun h => ⟨h.present, h.kind, h.owned, h.not_singleton, h.not_notNull⟩⟩

mutual
def isClassTerm (ps : List SymbolId) : Ty → Bool
  | .ref .noPrefix p [] => ps.contains p
  | .ref (.this pkg) c args =>
    decide (t.IsPackage pkg) && decide (t.IsPlainClass c) && args.length == (t.tparams c).length &&
      areClassTerms ps args
  | _ => false

def areClassTerms (ps : List SymbolId) : List Ty → Bool
  | [] => true
  | ty :: tys => isClassTerm ps ty && areClassTerms ps tys
end

mutual
theorem classTerm_of_check : ∀ ty, t.isClassTerm ps ty = true → t.ClassTerm ps ty
  | .ref .noPrefix p [], h => .param (by simpa [isClassTerm] using h)
  | .ref (.this pkg) c args, h => by
    simp only [isClassTerm, Bool.and_eq_true, decide_eq_true_eq, beq_iff_eq] at h
    exact .app h.1.1.1 h.1.1.2 h.1.2 (classTerms_of_check args h.2)

theorem classTerms_of_check : ∀ tys, t.areClassTerms ps tys = true → ∀ ty ∈ tys, t.ClassTerm ps ty
  | [], _ => by simp
  | ty :: tys, h => by
    simp only [areClassTerms, Bool.and_eq_true] at h
    exact List.forall_mem_cons.2 ⟨classTerm_of_check ty h.1, classTerms_of_check tys h.2⟩
end

/-- A well-formed parent of `c`, declared before it. -/
def isParent (c : SymbolId) (p : Ty) : Bool :=
  match p with
  | .ref (.this pkg) d args =>
    (decide (t.IsPackage pkg) && d == Known.anyRef &&
      args.isEmpty || t.isClassTerm (t.tparams c) p) &&
      match p.counted with
      | .ref _ d _ => decide (d.val < c.val) && d != Known.nothing && d != Known.null
      | _ => false
  | _ => false

/-- The conditions of plainness, over the symbols of a small table. -/
structure ListsPlain : Prop where
  known : t.IsPlainClass Known.object ∧ t.tparams Known.object = [] ∧
    t.IsPackage Known.javaLangClass ∧ t.kind Known.anyRef = .aliasType ∧ t.tparams
    Known.anyRef = [] ∧ t.info Known.anyRef = Known.objectType ∧ t.IsPackage (t.owner Known.anyRef)
  fresh : t.linearized = [] ∧ t.kind .none ≠ .plainClass ∧ t.size ≤ 60
  parents : ∀ i ∈ List.range t.size, t.IsPlainClass ⟨i⟩ →
    (t.get ⟨i⟩).parents.all (t.isParent ⟨i⟩) = true

instance : Decidable t.ListsPlain :=
  decidable_of_iff (_ ∧ _ ∧ _) ⟨fun h => ⟨h.1, h.2.1, h.2.2⟩, fun h =>
    ⟨h.known, h.fresh, h.parents⟩⟩

namespace ListsPlain

variable {t} (h : t.ListsPlain)
include h

theorem lt_size {c : SymbolId} (hc : t.IsPlainClass c) : c.val < t.size := by
  by_contra unknown
  refine h.fresh.2.1 ?_
  rw [SymbolTable.kind, ← get_of_size_le (Nat.not_lt.1 unknown)]
  exact hc.kind

theorem forall_plain {P : SymbolId → Prop}
    (hP : ∀ i ∈ List.range t.size, t.IsPlainClass ⟨i⟩ → P ⟨i⟩) : ∀ c, t.IsPlainClass c → P c :=
  fun c hc => hP c.val (List.mem_range.2 (h.lt_size hc)) hc

theorem isParent {c : SymbolId} (hc : t.IsPlainClass c)
    {p : Ty} (hp : p ∈ (t.get c).parents) : t.isParent c p = true :=
  List.all_eq_true.1 (h.forall_plain (P := fun c => (t.get c).parents.all (t.isParent c) = true)
    h.parents c hc) p hp

theorem step {c d : SymbolId} (hs : t.ParentStep c d) :
    d.val < c.val ∧ d ≠ Known.nothing ∧ d ≠ Known.null := by
  obtain ⟨hc, pre, args, mem⟩ := hs
  obtain ⟨p, hp, eq⟩ := List.mem_map.1 mem
  have parent := h.isParent hc hp
  unfold SymbolTable.isParent at parent
  split at parent
  · rw [eq] at parent
    simp only [Bool.and_eq_true, decide_eq_true_eq, bne_iff_ne] at parent
    exact ⟨parent.2.1.1, parent.2.1.2, parent.2.2⟩
  · cases parent

theorem chain {c : SymbolId} {cs : List SymbolId} (hs : List.IsChain t.ParentStep (c :: cs)) :
    cs.length ≤ c.val := by
  induction cs generalizing c with
  | nil => simp
  | cons d cs ih =>
    obtain ⟨hd, rest⟩ := List.isChain_cons_cons.1 hs
    have := h.step hd
    have := ih rest
    simp only [List.length_cons]
    omega

theorem plain : t.Plain where
  object := h.known.1
  object_tparams := h.known.2.1
  javaLang := h.known.2.2.1
  anyRef_kind := h.known.2.2.2.1
  anyRef_tparams := h.known.2.2.2.2.1
  anyRef_info := h.known.2.2.2.2.2.1
  anyRef_owned := h.known.2.2.2.2.2.2
  parents c hc p hp := by
    have parent := h.isParent hc hp
    unfold SymbolTable.isParent at parent
    split at parent
    · next pkg d args =>
      simp only [Bool.and_eq_true, Bool.or_eq_true,
        decide_eq_true_eq, beq_iff_eq, List.isEmpty_iff] at parent
      refine ⟨pkg, d, args, rfl, parent.1.imp (fun h => ⟨h.1.1, h.1.2, h.2⟩)
        (t.classTerm_of_check _)⟩
    · cases parent
  bottom c d hs := (h.step hs).2
  chains cs hs := by
    cases cs with
    | nil => simp
    | cons c cs =>
      have := h.chain hs
      cases cs with
      | nil => simp
      | cons d cs =>
        have := h.lt_size (List.isChain_cons_cons.1 hs).1.1
        have := h.fresh.2.2
        simp only [List.length_cons] at *
        omega
  remembers := ⟨rfl, fun c cs _ found => by simp [linearization?, h.fresh.1] at found⟩

end ListsPlain

variable {t}

/-- With one parent at most there is one way to a base class. -/
theorem oneInstantiation_of_single (ht : t.Plain) (single : ∀ c, t.IsPlainClass c →
    ∀ g ∈ t.supers c, ∀ g' ∈ t.supers c, g = g') : t.OneInstantiation := by
  intro l hl d as bs h h'
  induction h with
  | here => exact (h'.self ht hl).symm
  | up plain parent rest ih =>
    obtain ⟨pkg', e, gs, rfl, step, -, closed⟩ := ht.super_inst hl parent
    cases h' with
    | here =>
      rw [Ty.inst_app] at rest closed
      exact absurd (rest.derives ht closed) (ht.not_derives step)
    | up _ parent' rest' =>
      obtain rfl := single _ plain _ parent _ parent'
      exact ih closed rest'

/-! ## Occurrences -/

mutual
def isOccurring (t : SymbolTable) (up : Bool) : Ty → Bool
  | .ref .noPrefix p [] => (t.get p).variance != if up then .contravariant else .covariant
  | .ref (.this _) c args => areOccurring t up (t.tparams c) args
  | _ => false

def areOccurring (t : SymbolTable) (up : Bool) : List SymbolId → List Ty → Bool
  | p :: ps, a :: as =>
    ((t.get p).variance == .contravariant || isOccurring t up a) &&
      ((t.get p).variance == .covariant || isOccurring t (!up) a) && areOccurring t up ps as
  | _, _ => true
end

mutual
theorem occurs_of_check : ∀ up ty, t.isOccurring up ty = true → t.Occurs up ty
  | up, .ref .noPrefix p [], h => .param (by simpa [isOccurring] using h)
  | up, .ref (.this pkg) c args, h => by
    have each := occur_of_check up (t.tparams c) args (by simpa [isOccurring] using h)
    exact .app (fun i p a hp ha => (each i p a hp ha).1) fun i p a hp ha => (each i p a hp ha).2

theorem occur_of_check : ∀ up ps as, t.areOccurring up ps as = true → ∀ (i : Nat) p a, ps[i]? =
    some p → as[i]? = some a → ((t.get p).variance ≠ .contravariant → t.Occurs up a) ∧
      ((t.get p).variance ≠ .covariant → t.Occurs (!up) a)
  | _, [], _, _, _, _, _, hp, _ => nomatch hp
  | _, _ :: _, [], _, _, _, _, _, ha => nomatch ha
  | up, p :: ps, a :: as, h, i, p', a', hp, ha => by
    simp only [areOccurring, Bool.and_eq_true, Bool.or_eq_true, beq_iff_eq] at h
    cases i with
    | zero =>
      cases hp
      cases ha
      exact ⟨fun hv => occurs_of_check up a (h.1.1.resolve_left hv),
        fun hv => occurs_of_check (!up) a (h.1.2.resolve_left hv)⟩
    | succ i => exact occur_of_check up ps as h.2 i p' a' hp ha
end

end SymbolTable

end Conformance

import Conformance.Table.Linearization
import Mathlib.Data.List.Chain
import Mathlib.Logic.Relation

/-! # Plain class tables

A plain table declares classes of packages, each by its type parameters and by parents that are
written in them. Inheritance is acyclic with chains of at most 60 classes. Other symbols may stand
in the table; class types do not name them. -/

namespace Conformance

variable {ps : List SymbolId} {args : List Ty} {c d pkg : SymbolId}

namespace SymbolTable

variable (t : SymbolTable)

structure IsPackage (p : SymbolId) : Prop where
  kind : t.kind p = .packageClass
  flag : (t.flags p).has .package = true

/-- A class of a package, other than the two classes with conformance rules of their own. -/
structure IsPlainClass (c : SymbolId) : Prop where
  present : c.isPresent = true
  kind : t.kind c = .plainClass
  owned : t.IsPackage (t.owner c)
  not_singleton : c ≠ Known.singleton
  not_notNull : c ≠ Known.notNull

/-- Types built from the parameters `ps` by classes applied to all their arguments. -/
inductive ClassTerm (ps : List SymbolId) : Ty → Prop where
  | param {p : SymbolId} (mem : p ∈ ps) : ClassTerm ps (.ref .noPrefix p [])
  | app {pkg c : SymbolId} {args : List Ty} (package : t.IsPackage pkg) (plain : t.IsPlainClass c)
      (arity : args.length = (t.tparams c).length) (terms : ∀ a ∈ args, ClassTerm ps a) :
      ClassTerm ps (.ref (.this pkg) c args)

/-- Closed class types. -/
def ClassType (ty : Ty) : Prop := t.ClassTerm [] ty

end SymbolTable

/-- A parent type as it counts: `AnyRef` stands for `Object`. -/
def Ty.counted : Ty → Ty
  | .ref pre s args => if s = Known.anyRef then Known.objectType else .ref pre s args
  | ty => ty

namespace SymbolTable

variable (t : SymbolTable)

/-- The declared parents of a class, as they count. -/
def supers (c : SymbolId) : List Ty := (t.get c).parents.map Ty.counted

/-- `d` is the class of a declared parent of `c`. -/
def ParentStep (c d : SymbolId) : Prop :=
  t.IsPlainClass c ∧ ∃ pre args, Ty.ref pre d args ∈ t.supers c

/-- `c` is `d` or inherits from it. -/
def Derives (c d : SymbolId) : Prop := Relation.ReflTransGen t.ParentStep c d

/-- The table says that instances of `c` may be null. -/
def AdmitsNull (c : SymbolId) : Prop := ∃ t', SymM.containsNull c t = .ok true t'

/-- `t'` has the declarations of `t`, and the linearizations that it remembers are right for
them. -/
structure Remembers (t' : SymbolTable) : Prop where
  records : t'.records = t.records
  linearized : ∀ c cs, t.IsPlainClass c → t'.linearization? c = some cs →
    ∀ d, d ∈ cs ↔ t.Derives c d

structure Plain : Prop where
  object : t.IsPlainClass Known.object
  object_tparams : t.tparams Known.object = []
  javaLang : t.IsPackage Known.javaLangClass
  anyRef_kind : t.kind Known.anyRef = .aliasType
  anyRef_tparams : t.tparams Known.anyRef = []
  anyRef_info : t.info Known.anyRef = Known.objectType
  anyRef_owned : t.IsPackage (t.owner Known.anyRef)
  /-- A parent is `AnyRef` or a class applied to terms over the parameters. -/
  parents : ∀ c, t.IsPlainClass c → ∀ p ∈ (t.get c).parents, ∃ pkg d args, p = .ref (.this pkg)
    d args ∧ (t.IsPackage pkg ∧ d = Known.anyRef ∧ args = [] ∨ t.ClassTerm (t.tparams c) p)
  /-- The bottom classes have no subclass. -/
  bottom : ∀ c d, t.ParentStep c d → d ≠ Known.nothing ∧ d ≠ Known.null
  chains : ∀ cs, List.IsChain t.ParentStep cs → cs.length ≤ 60
  remembers : t.Remembers t

variable {t : SymbolTable}

theorem IsPackage.isPackageClass {p : SymbolId} (h : t.IsPackage p) :
    (t.get p).isPackageClass = true := by
  have kind : (t.get p).kind = .packageClass := h.kind
  rw [SymbolRecord.isPackageClass, kind]
  rfl

theorem ClassTerm.isPlainClass (h : t.ClassTerm ps (.ref (.this pkg) c args)) :
    t.IsPlainClass c := by
  cases h with
  | app _ plain _ _ => exact plain

theorem ClassTerm.arity (h : t.ClassTerm ps (.ref (.this pkg) c args)) :
    args.length = (t.tparams c).length := by
  cases h with
  | app _ _ arity _ => exact arity

theorem ClassTerm.arg (h : t.ClassTerm ps (.ref (.this pkg) c args))
    {a : Ty} (ha : a ∈ args) : t.ClassTerm ps a := by
  cases h with
  | app _ _ _ terms => exact terms a ha

theorem ClassType.shape {ty : Ty} (h : t.ClassType ty) :
    ∃ pkg c args, ty = .ref (.this pkg) c args := by
  cases h with
  | param mem => cases mem
  | app => exact ⟨_, _, _, rfl⟩

theorem derives_iff : t.Derives c d ↔ c = d ∨ ∃ m, t.ParentStep c m ∧ t.Derives m d :=
    Relation.ReflTransGen.cases_head_iff

namespace Plain

variable (ht : t.Plain)
include ht

theorem ne_anyRef (hc : t.IsPlainClass c) : c ≠ Known.anyRef := by
  rintro rfl
  have := hc.kind
  rw [ht.anyRef_kind] at this
  cases this

theorem objectType_term (ps : List SymbolId) : t.ClassTerm ps Known.objectType :=
  .app ht.javaLang ht.object (by rw [ht.object_tparams]; rfl) (by simp)

theorem counted_of_term (h : t.ClassTerm ps (.ref (.this pkg) d args)) :
    Ty.counted (.ref (.this pkg) d args) = .ref (.this pkg) d args :=
  if_neg (ht.ne_anyRef h.isPlainClass)

theorem super_term (hc : t.IsPlainClass c) {g : Ty} (hg : g ∈ t.supers c) :
    t.ClassTerm (t.tparams c) g ∧ ∃ pkg d args, g = .ref (.this pkg) d args := by
  obtain ⟨p, hp, rfl⟩ := List.mem_map.1 hg
  obtain ⟨pkg, d, args, rfl, ⟨-, rfl, rfl⟩ | term⟩ := ht.parents c hc p hp
  · exact ⟨ht.objectType_term _, _, _, _, rfl⟩
  · rw [ht.counted_of_term term]
    exact ⟨term, _, _, _, rfl⟩

theorem step_plain (h : t.ParentStep c d) : t.IsPlainClass d := by
  obtain ⟨hc, pre, args, mem⟩ := h
  obtain ⟨term, pkg, d', args', eq⟩ := ht.super_term hc mem
  cases eq
  exact term.isPlainClass

theorem derives_plain (hc : t.IsPlainClass c) (h : t.Derives c d) : t.IsPlainClass d := by
  induction h with
  | refl => exact hc
  | tail _ step _ => exact ht.step_plain step

end Plain

/-- Every chain of parents from `c` on has at most `n` classes. -/
def Within (t : SymbolTable) (n : Nat) (c : SymbolId) : Prop :=
    ∀ cs, List.IsChain t.ParentStep (c :: cs) → cs.length < n

theorem Plain.within (ht : t.Plain) (c : SymbolId) : t.Within 60 c :=
    fun cs h => ht.chains (c :: cs) h

theorem not_within_zero (c : SymbolId) : ¬ t.Within 0 c :=
    fun h => absurd (h [] (.singleton c)) (by simp)

theorem Within.step {n : Nat} (h : t.Within (n + 1) c) (hd : t.ParentStep c d) : t.Within n d := by
  intro cs hcs
  have := h (d :: cs) (.cons_cons hd hcs)
  simpa using this

/-- Inheritance has no cycle: going round one again and again would exceed every bound. -/
theorem Within.not_derives {n : Nat} (h : t.Within n c)
    (hd : t.ParentStep c d) : ¬ t.Derives d c := by
  induction n generalizing c d with
  | zero => exact absurd h (t.not_within_zero c)
  | succ n ih =>
    intro back
    obtain rfl | ⟨e, he, rest⟩ := back.cases_head
    · exact ih (h.step hd) hd .refl
    · exact ih (h.step hd) he (rest.tail hd)

theorem Plain.not_derives (ht : t.Plain) (hd : t.ParentStep c d) : ¬ t.Derives d c :=
  (ht.within c).not_derives hd

end SymbolTable

end Conformance

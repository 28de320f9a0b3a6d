import Conformance.Proofs.Classes.Aliases
import Conformance.Proofs.Hierarchy

/-! # Classes and their declared parents

Classes without parameters whose parents are classes, aliases of classes, or refinements of such
types. Whether a class conforms to such a type is decided by its linearization. A refined parent
counts there as its refinement class, which has no parents of its own, so the class inherits nothing
through it. -/

namespace Conformance

variable {r : SymbolId} {m n : Nat} {A : SymbolId → Prop} {ty : Ty}

namespace SymbolTable

variable (t : SymbolTable)

/-- A class of a package that takes no parameters. -/
structure IsSimpleClass (c : SymbolId) : Prop where
  present : c.isPresent = true
  kind : t.kind c = .plainClass ∨ t.kind c = .moduleClass
  params : t.tparams c = []
  owned : t.IsPackage (t.owner c)

instance (c : SymbolId) : Decidable (t.IsSimpleClass c) :=
  decidable_of_iff (c.isPresent = true ∧ (t.kind c = .plainClass ∨ t.kind c = .moduleClass) ∧
    t.tparams c = [] ∧ t.IsPackage (t.owner c)) ⟨fun h =>
    ⟨h.1, h.2.1, h.2.2.1, h.2.2.2⟩, fun h => ⟨h.present, h.kind, h.params, h.owned⟩⟩

/-- The type is a reference to the class `d`, through `n` aliases. -/
inductive Refers : Nat → Ty → SymbolId → Prop where
  | direct {p d : SymbolId} (simple : t.IsSimpleClass d) : Refers 0 (.ref (.this p) d []) d
  | step {n : Nat} {p a d : SymbolId} (head : t.IsAlias a) (params : t.tparams a = [])
      (ordinary : a ≠ Known.notNull ∧ a ≠ Known.singleton) (rest : Refers n (t.info a) d) :
      Refers (n + 1) (.ref (.this p) a []) d

/-- A refinement class as it is entered. -/
structure IsBareRefinement (r : SymbolId) : Prop where
  kind : t.kind r = .refinementClass
  parents : (t.get r).parents = []

/-- References to classes, and refinements of such types that declare nothing. -/
inductive Simple : Ty → Prop where
  | named {n : Nat} {ty : Ty} {d : SymbolId} (refers : t.Refers n ty d)
    (short : n < Limits.aliasSteps) : Simple ty
  | refined {ps : List Ty} {r : SymbolId} (bare : t.IsBareRefinement r)
      (parents : ∀ p ∈ ps, Simple p) : Simple (.refined ps [] r)

/-- Every class that the type names is as `A` says. -/
inductive AllNamed (A : SymbolId → Prop) : Ty → Prop where
  | named {n : Nat} {ty : Ty} {d : SymbolId} (refers : t.Refers n ty d)
    (holds : A d) : AllNamed A ty
  | refined {ps : List Ty} {r : SymbolId} (parents : ∀ p ∈ ps, AllNamed A p) :
    AllNamed A (.refined ps [] r)

/-- The class `c` inherits from every class that the type names. -/
def Above (c : SymbolId) (ty : Ty) : Prop := t.AllNamed (t.IsBase c) ty

/-- `d` is reached from `c` through declared parents that are references. -/
inductive Descends : SymbolId → SymbolId → Prop where
  | refl (c : SymbolId) : Descends c c
  | step {n : Nat} {c d e : SymbolId} {ty : Ty} (parent : ty ∈ (t.get c).parents)
      (refers : t.Refers n ty e) (rest : Descends e d) : Descends c d

/-- Simple classes have simple parents, and chains of at most 32 classes with the refinement that
may end them. -/
structure SimpleHierarchy : Prop where
  parents (c : SymbolId) : t.IsSimpleClass c → ∀ ty ∈ (t.get c).parents, t.Simple ty
  chains (c : SymbolId) : t.IsSimpleClass c → t.ChainsWithin 32 c

variable {t} {c d e : SymbolId} {ty : Ty} {n : Nat}

theorem IsSimpleClass.isClass (h : t.IsSimpleClass c) : (t.get c).isClass = true :=
    (class_of_kind h.kind).1

theorem IsSimpleClass.declared (absent : (t.get .none).isClass = false)
    (h : t.IsSimpleClass c) : c.val < t.size := by
  refine Nat.lt_of_not_le fun unknown => ?_
  have isClass := h.isClass
  rw [get_of_size_le unknown, absent] at isClass
  cases isClass

theorem IsSimpleClass.notType (h : t.IsSimpleClass c) :
    (t.get c).isAliasType = false ∧ (t.get c).isAbstractType = false :=
  (class_of_kind h.kind).2.imp id And.left

theorem IsSimpleClass.not_isRefinementClass (h : t.IsSimpleClass c) :
    (t.get c).isRefinementClass = false :=
  (class_of_kind h.kind).2.2.2

theorem IsSimpleClass.not_isRaw {t' : SymbolTable} {p : SymbolId}
    (h : t.IsSimpleClass c) (ht' : t.Computed t') : t'.isRaw (.ref (.this p) c []) = false := by
  have tparams : (t.get c).tparams = [] := h.params
  simp [isRaw, ht'.get_eq, tparams]

theorem IsSimpleClass.not_isAlias (h : t.IsSimpleClass c) : ¬ t.IsAlias c := by
  intro isAlias
  rcases h.kind with kind | kind <;> rw [isAlias.kind] at kind <;> cases kind

theorem IsBareRefinement.isClass (h : t.IsBareRefinement r) : (t.get r).isClass = true := by
  have kind : (t.get r).kind = .refinementClass := h.kind
  rw [SymbolRecord.isClass, kind]
  rfl

theorem IsSimpleClass.ne_refinement (h : t.IsSimpleClass c)
    (hr : t.IsBareRefinement r) : c ≠ r := by
  rintro rfl
  rcases h.kind with kind | kind <;> rw [hr.kind] at kind <;> cases kind

theorem Refers.simple (h : t.Refers n ty d) : t.IsSimpleClass d := by
  induction h with
  | direct simple => exact simple
  | step _ _ _ _ ih => exact ih

theorem Refers.unique (h : t.Refers n ty d) (h' : t.Refers m ty e) : d = e := by
  induction h generalizing m with
  | direct simple =>
    cases h' with
    | direct _ => rfl
    | step head => exact absurd head simple.not_isAlias
  | step head _ _ _ ih =>
    cases h' with
    | direct simple => exact absurd head simple.not_isAlias
    | step _ _ _ rest => exact ih rest

theorem allNamed_iff_of_refers (h : t.Refers n ty d) : t.AllNamed A ty ↔ A d := by
  refine ⟨fun all => ?_, .named h⟩
  cases all with
  | named refers holds => rwa [h.unique refers]
  | refined => cases h

theorem allNamed_refined_iff {ps : List Ty} : t.AllNamed A (.refined ps [] r) ↔
    ∀ p ∈ ps, t.AllNamed A p := by
  refine ⟨fun all => ?_, .refined⟩
  cases all with
  | named refers => cases refers
  | refined parents => exact parents

theorem parentClass_of_refers (h : t.Refers n ty d)
    (short : n < Limits.aliasSteps) : t.parentClass ty = d := by
  have found : ∀ {k}, n < k → t.parentClassUpTo k ty = d := by
    clear short
    induction h with
    | direct simple =>
      intro k lt
      obtain ⟨k, rfl⟩ : ∃ j, k = j + 1 := ⟨k - 1, by omega⟩
      rw [parentClassUpTo, simple.isClass]
      rfl
    | step head _ _ _ ih =>
      intro k lt
      obtain ⟨k, rfl⟩ : ∃ j, k = j + 1 := ⟨k - 1, by omega⟩
      rw [parentClassUpTo, head.not_class, head.isAliasType]
      exact ih (by omega)
  exact found short

/-- Nothing is inherited through a bare refinement. -/
theorem IsBareRefinement.eq_of_isBase (h : t.IsBareRefinement r) (base : t.IsBase r d) : d = r := by
  rcases base.cases_head with same | ⟨e, step, -⟩
  · exact same.symm
  · have parent : e ∈ (t.get r).parents.map t.parentClass := ((directBase_iff h.isClass).1 step).1
    rw [h.parents] at parent
    cases parent

theorem IsBareRefinement.chainsWithin (h : t.IsBareRefinement r) : t.ChainsWithin 1 r := by
  intro cs chain
  cases cs with
  | nil => exact Nat.le_refl 1
  | cons e cs =>
    have step : t.DirectBase r e := (List.isChain_cons_cons.1 chain).1
    obtain rfl := h.eq_of_isBase (.single step)
    have parent : e ∈ (t.get e).parents.map t.parentClass := ((directBase_iff h.isClass).1 step).1
    rw [h.parents] at parent
    cases parent

theorem AllNamed.imp {B : SymbolId → Prop} (h : t.AllNamed A ty)
    (imp : ∀ d, t.IsSimpleClass d → A d → B d) : t.AllNamed B ty := by
  induction h with
  | named refers holds => exact .named refers (imp _ refers.simple holds)
  | refined _ ih => exact .refined ih

/-- A declared parent that is a reference is a base. -/
theorem SimpleHierarchy.directBase (ht : t.SimpleHierarchy) (hc : t.IsSimpleClass c)
    (parent : ty ∈ (t.get c).parents) (refers : t.Refers n ty d) : t.DirectBase c d := by
  refine (directBase_iff hc.isClass).2 ⟨List.mem_map.2 ⟨ty, parent, ?_⟩,
    refers.simple.present, refers.simple.isClass⟩
  cases ht.parents c hc ty parent with
  | named refers' short => rw [parentClass_of_refers refers' short, refers.unique refers']
  | refined => cases refers

/-- Refined parents lead to no other class. -/
theorem SimpleHierarchy.isBase_iff_descends (ht : t.SimpleHierarchy)
    (hc : t.IsSimpleClass c) (hd : t.IsSimpleClass d) : t.IsBase c d ↔ t.Descends c d := by
  constructor
  · intro base
    induction base using Relation.ReflTransGen.head_induction_on with
    | refl => exact .refl d
    | @head c e step base ih =>
      obtain ⟨ty, parent, rfl⟩ := List.mem_map.1 ((directBase_iff hc.isClass).1 step).1
      cases ht.parents c hc ty parent with
      | named refers short =>
        rw [parentClass_of_refers refers short] at ih
        exact .step parent refers (ih refers.simple)
      | refined bare _ => exact absurd (bare.eq_of_isBase base) (hd.ne_refinement bare)
  · intro descends
    induction descends with
    | refl => exact .refl
    | step parent refers rest ih =>
      exact .head (ht.directBase hc parent refers) (ih refers.simple hd)

end SymbolTable

open SymM SymbolTable CheckM

/-! ## Operations on the table -/

section Table

variable {t : SymbolTable} {c d : SymbolId} {fuel : Nat} (fueled : 0 < fuel)

theorem isNonBottomSubClass_supplies (hc : (t.get c).isClass = true)
    (within : t.ChainsWithin 256 c) : Attains t.Computed True (isNonBottomSubClass c d) fun b =>
    b = true ↔ t.IsBase c d := by
  refine .ite (fun same => .pure ?_) fun _ => (gives_iff.1 (baseClasses_gives fun _ => within)).bind
    fun cs list => .pure ?_
  · rw [eq_of_beq same]
    exact ⟨fun _ => .refl, fun _ => rfl⟩
  · rw [list, List.contains_iff_mem]
    exact (linearUpTo_spec hc within).2.1 d

include fueled

/-- A member of a package is the same from everywhere. -/
theorem asSeenFrom_supplies {owner : SymbolId} (owned : t.IsPackage owner) (ty pre : Ty) :
    Attains t.Computed True (asSeenFrom fuel ty pre owner) (· = ty) := by
  obtain ⟨fuel, rfl⟩ : ∃ k, fuel = k + 1 := ⟨fuel - 1, by omega⟩
  refine .of_run fun t' ht' => ⟨ty, t', asSeenFrom_of_package ?_ fuel ty pre, ht', rfl⟩
  rw [ht'.get_eq, owned.isPackageClass]

theorem expandAlias_supplies {a : SymbolId} (head : t.IsAlias a) (params : t.tparams a = [])
    (pre : Ty) : Attains t.Computed True (View.expandAlias fuel (asSeenFrom fuel) pre a [])
    (· = t.info a) := by
  obtain ⟨fuel, rfl⟩ : ∃ k, fuel = k + 1 := ⟨fuel - 1, by omega⟩
  refine .record_bind fun t' ht' => ?_
  have tparams : (t.get a).tparams = [] := params
  rw [ht'.get_eq, tparams]
  refine (asSeenFrom_supplies fueled head.owned _ pre).bind fun ty same => ?_
  subst same
  exact .pure rfl

theorem dealias_supplies {k : Nat} (h : t.Refers n ty d) (short : n < k) : Attains t.Computed
    True (View.dealias fuel (asSeenFrom fuel) k ty) fun ty' => ∃ p, ty' = .ref (.this p) d [] := by
  induction h generalizing k with
  | @direct p d simple =>
    obtain ⟨k, rfl⟩ : ∃ j, k = j + 1 := ⟨k - 1, by omega⟩
    refine .record_bind fun t' ht' => ?_
    rw [ht'.get_eq, simple.notType.1]
    exact .pure ⟨p, rfl⟩
  | @step n p a d head params ordinary rest ih =>
    obtain ⟨k, rfl⟩ : ∃ j, k = j + 1 := ⟨k - 1, by omega⟩
    refine .record_bind fun t' ht' => ?_
    have tparams : (t.get a).tparams = [] := params
    rw [ht'.get_eq, head.isAliasType, tparams]
    exact (expandAlias_supplies fueled head params _).bind fun ty same => same ▸ ih (by omega)

theorem normalizeUpTo_supplies {k : Nat} (h : t.Refers n ty d)
    (short : n < k) : Attains t.Computed True (normalizeUpTo fuel k ty) fun ty' =>
    (∃ p, ty' = .ref (.this p) d []) ∧ (n = 0 → ty' = ty) := by
  induction h generalizing k with
  | @direct p d simple =>
    obtain ⟨k, rfl⟩ : ∃ j, k = j + 1 := ⟨k - 1, by omega⟩
    refine .record_bind fun t' ht' => ?_
    have tparams : (t.get d).tparams = [] := simple.params
    rw [ht'.get_eq, simple.notType.1, tparams]
    exact .get_bind fun _ _ => .pure ⟨⟨p, rfl⟩, fun _ => rfl⟩
  | @step n p a d head params ordinary rest ih =>
    obtain ⟨k, rfl⟩ : ∃ j, k = j + 1 := ⟨k - 1, by omega⟩
    refine .record_bind fun t' ht' => ?_
    have tparams : (t.get a).tparams = [] := params
    rw [ht'.get_eq, head.isAliasType, tparams]
    refine (expandAlias_supplies fueled head params _).bind fun ty same => ?_
    subst same
    exact (ih (by omega)).imp fun ty' h => ⟨h.1, nofun⟩

/-- The supertype of a declared parent, given those of the classes above. -/
theorem baseTypeUpTo_parent_supplies {k : Nat} (hd : t.IsSimpleClass d)
    (refers : t.Refers m ty c) (short : m < Limits.aliasSteps)
    (room : 1 ≤ k ∧ 2 * k ≤ n) {P : Ty → Prop} (above : ∀ n' p, 2 * k ≤ n' + 1 →
      Attains t.Computed True (View.baseTypeUpTo fuel (asSeenFrom fuel) d n' (.ref (.this p) c []))
        P) :
    Attains t.Computed True (View.baseTypeUpTo fuel (asSeenFrom fuel) d n ty) P := by
  have simple := refers.simple
  cases refers with
  | direct => exact above n _ (by omega)
  | @step m p a _ head params ordinary rest =>
    have refers : t.Refers (m + 1) (.ref (.this p) a []) c := .step head params ordinary rest
    obtain ⟨n, rfl⟩ : ∃ j, n = j + 1 := ⟨n - 1, by omega⟩
    refine .ite (fun same => ?_) fun _ => .record_bind fun t' ht' => ?_
    · rw [eq_of_beq same] at head
      exact absurd head hd.not_isAlias
    · rw [ht'.get_eq, if_neg (by simp [head.not_class]), if_pos head.isAliasType]
      refine (dealias_supplies fueled refers short).bind fun expanded form => ?_
      obtain ⟨q, rfl⟩ := form
      have ne : Ty.ref (.this q) c [] ≠ .ref (.this p) a [] := by
        intro same
        injection same with _ same
        rw [← same] at head
        exact simple.not_isAlias head
      rw [if_neg ne]
      exact above n q (by omega)

/-- The base type of a class at another is a reference to the other one, if the class inherits from
it. Each class takes at most two steps, one of them for an alias. -/
theorem baseTypeUpTo_supplies (ht : t.SimpleHierarchy)
    (hc : t.IsSimpleClass c) (hd : t.IsSimpleClass d)
    {k : Nat} (within : t.ChainsWithin k c) (room : 2 * k ≤ n + 1) (p : SymbolId) : Attains
    t.Computed True (View.baseTypeUpTo fuel (asSeenFrom fuel) d n (.ref (.this p) c [])) fun ty =>
      ¬ t.IsBase c d ∧ ty = .noType ∨ t.IsBase c d ∧ ∃ q, ty = .ref (.this q) d [] := by
  classical
  obtain ⟨fuel, rfl⟩ : ∃ k, fuel = k + 1 := ⟨fuel - 1, by omega⟩
  induction k generalizing c n p with
  | zero => exact absurd within.pos (Nat.lt_irrefl 0)
  | succ k ih =>
    obtain ⟨n, rfl⟩ : ∃ m, n = m + 1 := ⟨n - 1, by omega⟩
    refine .ite (fun same => .pure ?_) fun other => ?_
    · obtain rfl := eq_of_beq same
      exact .inr ⟨.refl, p, rfl⟩
    · have ne : c ≠ d := by simpa using other
      have tparams : (t.get c).tparams = [] := hc.params
      refine .record_bind fun t' ht' => ?_
      rw [ht'.get_eq, if_pos hc.isClass, tparams]
      refine (isNonBottomSubClass_supplies hc.isClass ((ht.chains c hc).mono (by decide))).bind
        fun derives derivesIff => ?_
      cases derives with
      | false => exact .pure (.inl ⟨fun base => Bool.false_ne_true (derivesIff.2 base), rfl⟩)
      | true =>
        have base : t.IsBase c d := derivesIff.1 rfl
        refine (firstPresent_attains (A := fun parent => t.IsBase (t.parentClass parent) d)
          (P := fun _ ty => ∃ q, ty = .ref (.this q) d []) ?_ fun parent hparent =>
          ?_).imp fun ty hty => ?_
        · rintro _ _ ⟨q, rfl⟩
          rfl
        · refine .get_bind fun t1 ht1 => ?_
          rw [ht1.parentClass_eq]
          cases ht.parents c hc parent hparent with
          | @named m _ e refers short =>
            have he := refers.simple
            rw [parentClass_of_refers refers short, if_neg (by simp [he.present])]
            refine (isNonBottomSubClass_supplies he.isClass
              ((ht.chains e he).mono (by decide))).bind fun inherits inheritsIff => ?_
            cases inherits with
            | false => exact .pure (.inl ⟨fun base => Bool.false_ne_true (inheritsIff.2 base), rfl⟩)
            | true =>
              have step : t.DirectBase c e := (directBase_iff hc.isClass).2 ⟨List.mem_map.2
                ⟨parent, hparent, parentClass_of_refers refers short⟩, he.present, he.isClass⟩
              have withinParent := within.step step
              refine (asSeenFrom_supplies fueled hc.owned parent _).bind fun seen same => ?_
              subst same
              exact baseTypeUpTo_parent_supplies fueled hd refers short ⟨withinParent.pos, by omega⟩
                fun n' q room' => ih he withinParent room' q
          | @refined ps r bare rest =>
            have notBase : ¬ t.IsBase r d := fun base =>
              hd.ne_refinement bare (bare.eq_of_isBase base)
            refine .ite (fun _ => .pure (.inl ⟨notBase, rfl⟩)) fun _ => ?_
            refine (isNonBottomSubClass_supplies bare.isClass
              (bare.chainsWithin.mono (by decide))).bind fun inherits inheritsIff => ?_
            cases inherits with
            | false => exact .pure (.inl ⟨notBase, rfl⟩)
            | true => exact absurd (inheritsIff.1 rfl) notBase
        · rcases hty with ⟨none, -⟩ | ⟨_, -, form⟩
          · rcases base.cases_head with same | ⟨e, step, rest⟩
            · exact absurd same ne
            · obtain ⟨parent, hparent, rfl⟩ := List.mem_map.1 ((directBase_iff hc.isClass).1 step).1
              exact absurd (decide_eq_true rest) (List.find?_eq_none.1 none parent hparent)
          · exact .inr ⟨base, form⟩

end Table

/-! ## Rules -/

/-- A class other than those that have conformance rules of their own. -/
def Known.Ordinary (d : SymbolId) : Prop := d ≠ Known.notNull ∧ d ≠ Known.singleton

/-- `true` is answered where the class `c` inherits, and nowhere else but for the bottom classes and
what is not ordinary. -/
abbrev AnswersInheritance (t : SymbolTable) (n : Nat)
    (c : SymbolId) (ordinary inherits : Prop) (x : CheckM Bool) : Prop :=
  Settles t.Computed n True x (fun b => b = true →
    c ≠ Known.nothing → c ≠ Known.null → ordinary → inherits) fun b => inherits → b = true

/-- Conformance of classes to simple types is decided by inheritance. -/
def Queries.DecideParents (q : Queries) (t : SymbolTable) (n : Nat) : Prop :=
  ∀ {c : SymbolId} {r : Ty} (p : SymbolId), t.IsSimpleClass c → t.Simple r → AnswersInheritance
    t n c (t.AllNamed Known.Ordinary r) (t.Above c r) (q.sub (.ref (.this p) c []) r .unlimited)

section Rules

variable {cfg : Config} (fueled : 0 < cfg.fuel) {q : Queries} {t : SymbolTable} {n : Nat}
  {c d e p r : SymbolId}

theorem containsNull_supplies (ht : t.SimpleHierarchy) (hd : t.IsSimpleClass d) :
    Attains t.Computed True (containsNull d) fun _ => True := by
  have within := (ht.chains d hd).mono (by decide : 32 ≤ 256)
  refine .get_bind fun _ _ => .ite (fun _ => .pure trivial) fun _ => ?_
  refine (isNonBottomSubClass_supplies hd.isClass within).bind fun _ _ =>
    .ite (fun _ => .pure trivial) fun _ => ?_
  exact (isNonBottomSubClass_supplies hd.isClass within).bind fun _ _ => .pure trivial

/-- What is left of a class on the left when it does not inherit: only the bottom classes
conform. -/
theorem leftRef_answers (ht : t.SimpleHierarchy) (hc : t.IsSimpleClass c)
    (hd : t.IsSimpleClass d) (depth : Depth) : Settles
    t.Computed n True (leftRef cfg q (.this p) c [] (.ref (.this r) d []) depth)
      (fun b => b = true → c = Known.nothing ∨ c = Known.null) fun _ => True := by
  refine .ite (fun same => .pure (fun _ => .inl (eq_of_beq same)) trivial) fun _ =>
    .ite (fun same => ?_) fun _ => ?_
  · exact .imp (.onTable (containsNull_supplies ht hd) id fun _ => id)
      (fun _ _ _ => .inr (eq_of_beq same)) fun _ _ => id
  · refine .readTable_bind fun t' ht' => ?_
    rw [hc.not_isRaw ht', ht'.get_eq, if_pos hc.isClass, if_neg (by simp), hc.not_isRefinementClass]
    exact .ite (fun _ => .pure nofun trivial) fun _ => .pure nofun trivial

/-- A refinement without declarations asks for its parents. -/
theorem refinementConforms_answers (hq : q.DecideParents t n)
    (hc : t.IsSimpleClass c) {ps : List Ty} (simple : ∀ ty ∈ ps, t.Simple ty) : AnswersInheritance
    t n c (t.AllNamed Known.Ordinary (.refined ps [] r)) (t.Above c (.refined ps [] r))
      (conformsToRefinement cfg q (.ref (.this p) c []) ps [] .unlimited) := by
  refine (Settles.allM fun ty mem => hq p hc (simple ty mem)).bind fun b only => ?_
  cases b with
  | false => exact .pure nofun fun refused above => refused (allNamed_refined_iff.1 above)
  | true =>
    refine .pure (fun _ notNothing notNull ordinary => .refined fun ty mem => ?_) fun _ _ => rfl
    exact only rfl ty mem notNothing notNull (allNamed_refined_iff.1 ordinary ty mem)

include fueled

theorem isNotNull_supplies (ht : t.SimpleHierarchy) (hc : t.IsSimpleClass c) :
    Attains t.Computed True (isNotNull cfg.fuel (.ref (.this p) c [])) fun _ => True := by
  obtain ⟨fuel, eq⟩ : ∃ k, cfg.fuel = k + 1 := ⟨cfg.fuel - 1, by omega⟩
  have within := (ht.chains c hc).mono (by decide : 32 ≤ 256)
  rw [eq]
  refine .record_bind fun t' ht' => .ite (fun _ => .pure trivial) fun _ => ?_
  rw [ht'.get_eq, if_pos hc.isClass]
  refine (isNonBottomSubClass_supplies hc.isClass within).bind fun _ _ =>
    .ite (fun _ => .pure trivial) fun _ => ?_
  exact (isNonBottomSubClass_supplies hc.isClass within).imp fun _ _ => trivial

theorem isStable_supplies (hc : t.IsSimpleClass c) :
    Attains t.Computed True (isStable cfg.fuel (.ref (.this p) c [])) fun _ => True := by
  obtain ⟨fuel, eq⟩ : ∃ k, cfg.fuel = k + 1 := ⟨cfg.fuel - 1, by omega⟩
  rw [eq]
  refine .ite (fun _ => .pure trivial) fun _ => .record_bind fun t' ht' => ?_
  rw [ht'.get_eq, hc.notType.1, hc.notType.2]
  exact .pure trivial

/-- Constructors of packages are compared by their symbols. -/
theorem constructorConforms_answers {depth : Depth} (hc : t.IsSimpleClass c)
    (concrete : (t.get d).isAbstractType = false) : Settles t.Computed n True
    (constructorConforms cfg q (.this p) c (.this r) d depth) (· = decide (c = d)) fun _ => True :=
  constructorConforms_concrete (fun _ => fueled) Computed.get_eq trivial trivial hc.owned concrete

/-- A class on the right, once the base types are dealt with. -/
theorem rightRef_answers (ht : t.SimpleHierarchy) (hc : t.IsSimpleClass c)
    (hd : t.IsSimpleClass d) (depth : Depth) : Settles
    t.Computed n True (rightRef cfg q (.ref (.this p) c []) (.this r) d [] depth)
      (fun b => b = true → Known.Ordinary d → c = Known.nothing ∨ c = Known.null) fun _ =>
        True := by
  refine .readTable_bind fun t' ht' => ?_
  have last : Settles t.Computed n True (leftRef cfg q (.this p) c [] (.ref (.this r) d []) depth)
    _ _ := leftRef_answers ht hc hd depth
  refine .ite (fun special => ?_) fun _ => .ite (fun special => ?_) fun _ => ?_
  · exact .imp (.onTable (isNotNull_supplies fueled ht hc) id fun _ => id)
      (fun _ _ _ ordinary => absurd (eq_of_beq special) ordinary.1) fun _ _ => id
  · refine .onTable_bind (isStable_supplies fueled hc) fun stable _ =>
      .ite (fun _ => .pure ?_ trivial) fun _ => ?_
    · exact fun _ ordinary => absurd (eq_of_beq special) ordinary.2
    · exact last.imp (fun _ h answer _ => h answer) fun _ _ h => h
  · rw [hd.not_isRaw ht', ht'.get_eq, if_pos hd.isClass, if_neg (by simp), hd.not_isRefinementClass]
    exact last.imp (fun _ h answer _ => h answer) fun _ _ h => h

theorem classesConform_answers (ht : t.SimpleHierarchy)
    (hq : q.DecideParents t n) (hc : t.IsSimpleClass c)
    (hd : t.IsSimpleClass d) : AnswersInheritance t n c (Known.Ordinary d) (t.IsBase c d)
      (refsConform cfg q (.this p) c [] (.this r) d [] .unlimited) := by
  refine .readTable_bind fun t' ht' => ?_
  have tparams : t'.tparams c = [] := by
    rw [SymbolTable.tparams, ht'.get_eq]
    exact hc.params
  refine (constructorConforms_answers fueled hc hd.notType.2).bind fun same eq => ?_
  cases same with
  | true =>
    obtain rfl := of_decide_eq_true eq.symm
    rw [if_pos rfl, tparams]
    exact .pure (fun _ _ _ _ => .refl) fun _ _ => rfl
  | false =>
    have ne : c ≠ d := of_decide_eq_false eq.symm
    rw [if_neg (by simp), ht'.get_eq, hd.isClass]
    refine .onTable_bind (baseTypeUpTo_supplies fueled ht hc hd (ht.chains c hc) (by decide) p)
      fun ty found => ?_
    rcases found with ⟨notBase, rfl⟩ | ⟨isBase, q', rfl⟩
    · refine (rightRef_answers fueled ht hc hd .unlimited).imp
        (fun answer only yes notNothing notNull ordinary => ?_) fun _ _ _ _ isBase =>
        absurd isBase notBase
      rcases only yes ordinary with bottom | bottom
      · exact absurd bottom notNothing
      · exact absurd bottom notNull
    · have differs : (Ty.ref (.this q') d [] != .ref
        (.this p) c [] && (Ty.ref (.this q') d []).isPresent) = true := by
        simp [Ne.symm ne, Ty.isPresent]
      rw [if_pos differs]
      refine (hq q' hd (.named (.direct hd) (by decide))).bind fun answer _ => ?_
      cases answer with
      | true => exact .pure (fun _ _ _ _ => isBase) fun _ _ _ => rfl
      | false =>
        refine (rightRef_answers fueled ht hc hd .unlimited).imp
          (fun _ _ _ _ _ _ => isBase) fun _ _ _ refused => ?_
        exact absurd (refused (.named (.direct hd) .refl)) Bool.false_ne_true

theorem aliasConforms_answers (hq : q.DecideParents t n)
    (hc : t.IsSimpleClass c) (head : t.IsAlias d) (params : t.tparams d = [])
    (ordinary : Known.Ordinary d) (rest : t.Refers m (t.info d) e)
    (short : m + 1 < Limits.aliasSteps) : AnswersInheritance t n c (Known.Ordinary e)
    (t.IsBase c e) (refsConform cfg q (.this p) c [] (.this r) d [] .unlimited) := by
  have refers : t.Refers (m + 1) (.ref (.this r) d []) e := .step head params ordinary rest
  refine .readTable_bind fun t' ht' => ?_
  refine (constructorConforms_answers fueled hc head.concrete).bind fun same eq => ?_
  cases same with
  | true =>
    obtain rfl := of_decide_eq_true eq.symm
    exact absurd head hc.not_isAlias
  | false =>
    rw [if_neg (by simp), ht'.get_eq, head.not_class]
    refine .readTable_bind fun t1 ht1 => ?_
    simp only [ht1.get_eq]
    rw [if_neg (by simpa using ordinary.1), if_neg (by simpa using ordinary.2),
      if_neg (by simp [head.not_class]), if_neg (by simp [head.concrete]), if_pos head.isAliasType]
    refine .onTable_bind (normalizeUpTo_supplies fueled (.direct hc) (by decide)) fun ty1 h1 => ?_
    refine .onTable_bind (normalizeUpTo_supplies fueled refers short) fun ty2 h2 => ?_
    obtain ⟨⟨q', rfl⟩, -⟩ := h2
    have expanded : Ty.ref (.this q') e [] ≠ .ref (.this r) d [] := by
      intro same
      injection same with _ same
      rw [← same] at head
      exact rest.simple.not_isAlias head
    rw [h1.2 rfl, if_neg (by simp [expanded])]
    have direct : t.Refers 0 (.ref (.this q') e []) e := .direct rest.simple
    refine (hq p hc (.named direct (by decide))).imp (fun _ only yes notNothing notNull special =>
      ?_) fun _ _ holds _ isBase => holds (.named direct isBase)
    exact (allNamed_iff_of_refers direct).1 (only yes notNothing notNull (.named direct special))

/-- One step of deciding whether a class conforms to a simple type. -/
theorem subStep_answers (ht : t.SimpleHierarchy) (hq : q.DecideParents t n) (hc : t.IsSimpleClass c)
    (simple : t.Simple ty) : AnswersInheritance t n c (t.AllNamed Known.Ordinary ty) (t.Above c ty)
      (subStep cfg q (.ref (.this p) c []) ty .unlimited) := by
  have tparams : (t.get c).tparams = [] := hc.params
  cases simple with
  | @named m ty d refers short =>
    rw [SymbolTable.Above]
    simp only [allNamed_iff_of_refers refers]
    cases refers with
    | @direct r d hd =>
      have tparams' : (t.get d).tparams = [] := hd.params
      refine .ite (fun same => ?_) fun _ => .readTable_bind fun t' ht' => ?_
      · obtain rfl : c = d := by
          simp only [Ty.isPermissive, Bool.or_false, decide_eq_true_eq] at same
          injection same
        exact .pure (fun _ _ _ _ => .refl) fun _ => rfl
      · simp only [isHigherKinded, ht'.get_eq, tparams, tparams']
        exact classesConform_answers fueled ht hq hc hd
    | @step m r a d head params ordinary rest =>
      have tparams' : (t.get a).tparams = [] := params
      refine .ite (fun same => ?_) fun _ => .readTable_bind fun t' ht' => ?_
      · obtain rfl : c = a := by
          simp only [Ty.isPermissive, Bool.or_false, decide_eq_true_eq] at same
          injection same
        exact absurd head hc.not_isAlias
      · simp only [isHigherKinded, ht'.get_eq, tparams, tparams']
        exact aliasConforms_answers fueled hq hc head params ordinary rest short
  | @refined ps r bare simple =>
    refine .readTable_bind fun t' ht' => ?_
    simp only [isHigherKinded, ht'.get_eq, tparams]
    exact refinementConforms_answers hq hc simple

/-- Whatever the levels left, conformance of classes is decided by inheritance. -/
theorem Config.queriesUpTo_parents (ht : t.SimpleHierarchy)
    (n : Nat) : (cfg.queriesUpTo n).DecideParents t n := by
  induction n with
  | zero => exact fun p hc simple => .query (Guard.admits_enter _) _ _ nofun nofun
  | succ n ih =>
    refine fun p hc simple => .query (Guard.admits_enter _) _ _ nofun fun m levels => ?_
    obtain rfl : m = n := by omega
    exact subStep_answers fueled ht ih hc simple

end Rules

/-- A class conforms to the parents that it declares as references, and to a refined type if it
descends through such parents from every class that the type names; the bottom classes and the two
special ones apart it conforms to nothing else. -/
theorem Config.isSubtype_iff_descends {cfg : Config} (fueled : 0 < cfg.fuel) {t : SymbolTable}
    (ht : t.SimpleHierarchy) {s : CheckState} (hs : t.Computed s.table) {c : SymbolId}
    (hc : t.IsSimpleClass c) (p : SymbolId) : (∀ ty ∈ (t.get c).parents, ∀ n d, t.Refers n ty d →
      ∃ b s', cfg.isSubtype (.ref (.this p) c []) ty s = .ok b s' ∧ (b = true ∨ Counted s s')) ∧
    ∀ ty, t.Simple ty → ∃ b s', cfg.isSubtype (.ref (.this p) c []) ty s = .ok b s' ∧
      (t.AllNamed (t.Descends c) ty → b = true ∨ Counted s s') ∧ (b = true → c ≠ Known.nothing →
      c ≠ Known.null → t.AllNamed Known.Ordinary ty → t.AllNamed (t.Descends c) ty) := by
  have decides := fun ty (simple : t.Simple ty) =>
    (Config.queriesUpTo_parents fueled ht (Config.levelsLeft s) p hc simple).answers
      s hs (by rw [Config.levelsLeft]; omega)
  refine ⟨fun ty parent n d refers => ?_, fun ty simple => ?_⟩
  · obtain ⟨b, s', run, -, -, holds⟩ := decides ty (ht.parents c hc ty parent)
    exact ⟨b, s', run, holds.symm.imp_left fun holds =>
      holds (.named refers (.single (ht.directBase hc parent refers)))⟩
  · obtain ⟨b, s', run, -, only, holds⟩ := decides ty simple
    refine ⟨b, s', run, fun descends => holds.symm.imp_left fun holds =>
      ?_, fun yes notNothing notNull ordinary => ?_⟩
    · exact holds (descends.imp fun d hd => (ht.isBase_iff_descends hc hd).2)
    · exact (only yes notNothing notNull ordinary).imp fun d hd => (ht.isBase_iff_descends hc hd).1

/-- A package with classes `A` and `B`, an alias `T` of `A`, the refinement `T with B`, a class `C`
whose only parent is the refined type, and a class `D` that also has `T` and `B` as parents. -/
def SymbolTable.refinedParents : SymbolTable := SymM.after (do
  let pkg ← newPackage Known.rootClass "p"
  let a ← newClass pkg "A" .empty
  modify (·.setParents a [Known.anyRefType])
  let b ← newClass pkg "B" (.single .trait)
  modify (·.setParents b [Known.anyRefType])
  let name ← newAliasType pkg "T"
  SymM.setInfo name (.ref (.this pkg) a [])
  let cls ← newRefinementClass pkg
  let parents : List Ty := [.ref (.this pkg) name [], .ref (.this pkg) b []]
  let refined ← refinedType cls parents []
  let c ← newClass pkg "C" .empty
  modify (·.setParents c [refined])
  let d ← newClass pkg "D" .empty
  modify (·.setParents d (parents ++ [refined]))) .initial

theorem refinedParents_simpleHierarchy : refinedParents.SimpleHierarchy := by
  let t := refinedParents
  let refined : Ty := .refined [.ref (.this ⟨24⟩) ⟨28⟩ [], .ref (.this ⟨24⟩) ⟨27⟩ []] [] ⟨29⟩
  have entries : t.size = 32 ∧ (t.get .none).isClass = false ∧
      (∀ i < t.size, ∀ ty ∈ (t.get ⟨i⟩).parents, ty ∈
      [Known.anyType, Known.objectType, Known.anyValType, Known.anyRefType,
        .ref (.this ⟨24⟩) ⟨28⟩ [], .ref (.this ⟨24⟩) ⟨27⟩ [], refined]) ∧
      ∀ i < t.size, ∀ p ∈ (t.get ⟨i⟩).parents, (t.parentClass p).val < i := by decide +kernel
  have classes : t.IsSimpleClass Known.any ∧ t.IsSimpleClass Known.object ∧ t.IsSimpleClass
      Known.anyVal ∧ t.IsSimpleClass ⟨26⟩ ∧ t.IsSimpleClass ⟨27⟩ := by decide +kernel
  have aliases : t.IsAlias Known.anyRef ∧ t.IsAlias ⟨28⟩ ∧
      t.tparams Known.anyRef = [] ∧ t.tparams ⟨28⟩ = [] ∧ t.info Known.anyRef = Known.objectType ∧
      t.info ⟨28⟩ = .ref (.this ⟨24⟩) ⟨26⟩ [] := by decide +kernel
  have bare : t.IsBareRefinement ⟨29⟩ := ⟨by decide +kernel, by decide +kernel⟩
  change t.SimpleHierarchy
  clear_value t
  obtain ⟨size, absent, parents, down⟩ := entries
  obtain ⟨any, object, anyVal, a, b⟩ := classes
  obtain ⟨anyRef, name, anyRefParams, nameParams, anyRefInfo, nameInfo⟩ := aliases
  have direct : ∀ {p d}, t.IsSimpleClass d → t.Simple (.ref (.this p) d []) :=
    fun simple => .named (.direct simple) (by decide)
  have renamed : ∀ {p q s d}, t.IsAlias s → t.tparams s = [] →
      t.info s = .ref (.this q) d [] → t.IsSimpleClass d →
      s ≠ Known.notNull ∧ s ≠ Known.singleton → t.Simple (.ref (.this p) s []) := by
    intro p q s d head params info simple ordinary
    have meant : t.Refers 0 (t.info s) d := info ▸ .direct simple
    exact .named (.step head params ordinary meant) (by decide)
  have viaName : t.Simple (.ref (.this ⟨24⟩) ⟨28⟩ []) :=
    renamed name nameParams nameInfo a (by decide)
  refine ⟨fun c hc ty parent => ?_, fun c hc => ?_⟩
  · have known := parents c.val (hc.declared absent) ty parent
    simp only [List.mem_cons, List.not_mem_nil, or_false] at known
    rcases known with rfl | rfl | rfl | rfl | rfl | rfl | rfl
    · exact direct any
    · exact direct object
    · exact direct anyVal
    · exact renamed anyRef anyRefParams anyRefInfo object (by decide)
    · exact viaName
    · exact direct b
    · refine .refined bare fun ty mem => ?_
      simp only [List.mem_cons, List.not_mem_nil, or_false] at mem
      rcases mem with rfl | rfl
      · exact viaName
      · exact direct b
  · have declared := hc.declared absent
    exact (chainsWithin_of_descending declared down).mono (by omega)

/-- `D` descends from the classes that its refined parent names, so it conforms to it. -/
theorem class_conforms_to_refined_parent :
    let t := refinedParents
    let refined : Ty := .refined [.ref (.this ⟨24⟩) ⟨28⟩ [], .ref (.this ⟨24⟩) ⟨27⟩ []] [] ⟨29⟩
    t.SimpleHierarchy ∧ t.IsSimpleClass ⟨31⟩ ∧ refined ∈ (t.get ⟨31⟩).parents ∧
      ∀ (cfg : Config) (s : CheckState), 0 < cfg.fuel → t.Computed s.table → ∃ b s', cfg.isSubtype
        (.ref (.this ⟨24⟩) ⟨31⟩ []) refined s = .ok b s' ∧ (b = true ∨ Counted s s') := by
  intro t refined
  have hierarchy : t.SimpleHierarchy := refinedParents_simpleHierarchy
  have facts : t.IsSimpleClass ⟨31⟩ ∧ t.IsSimpleClass ⟨26⟩ ∧ t.IsSimpleClass ⟨27⟩ ∧ t.IsAlias ⟨28⟩ ∧
      t.tparams ⟨28⟩ = [] ∧ t.info ⟨28⟩ = .ref (.this ⟨24⟩) ⟨26⟩ [] ∧ (t.get ⟨31⟩).parents =
      [.ref (.this ⟨24⟩) ⟨28⟩ [], .ref (.this ⟨24⟩) ⟨27⟩ [], refined] := by decide +kernel
  clear_value t
  obtain ⟨simple, a, b, name, params, info, parents⟩ := facts
  have viaName : t.Refers 1 (.ref (.this ⟨24⟩) ⟨28⟩ []) ⟨26⟩ :=
    .step name params (by decide) (info ▸ .direct a)
  have viaB : t.Refers 0 (.ref (.this ⟨24⟩) ⟨27⟩ []) ⟨27⟩ := .direct b
  have descends : t.AllNamed (t.Descends ⟨31⟩) refined := by
    refine .refined fun ty mem => ?_
    simp only [List.mem_cons, List.not_mem_nil, or_false] at mem
    rcases mem with rfl | rfl
    · exact .named viaName (.step (by simp [parents]) viaName (.refl _))
    · exact .named viaB (.step (by simp [parents]) viaB (.refl _))
  have declared : refined ∈ (t.get ⟨31⟩).parents := by simp [parents]
  refine ⟨hierarchy, simple, declared, fun cfg s fueled computed => ?_⟩
  obtain ⟨answer, s', run, holds, -⟩ :=
    (Config.isSubtype_iff_descends fueled hierarchy computed simple ⟨24⟩).2
      refined (hierarchy.parents _ simple _ declared)
  exact ⟨answer, s', run, holds descends⟩

/-- `C` inherits nothing through its refined parent: it conforms neither to it nor to the types that
the parent is made of. -/
theorem class_apart_from_refined_parent :
    let t := refinedParents
    let refined : Ty := .refined [.ref (.this ⟨24⟩) ⟨28⟩ [], .ref (.this ⟨24⟩) ⟨27⟩ []] [] ⟨29⟩
    let cfg : Config := ⟨{}, .typeConstraints, 8⟩
    let c : Ty := .ref (.this ⟨24⟩) ⟨30⟩ []
    (t.get ⟨30⟩).parents = [refined] ∧
    ∀ ty ∈ [refined, .ref (.this ⟨24⟩) ⟨28⟩ [], .ref (.this ⟨24⟩) ⟨27⟩ []],
      (cfg.isSubtype c ty).answer? (.fresh {} t 0 #[]) = some false ∧
      ¬ Counted (.fresh {} t 0 #[])
        ((cfg.isSubtype c ty).after (.fresh {} t 0 #[])) := by decide +kernel

end Conformance

import Conformance.Proofs.Members.Aliases
import Conformance.Proofs.Members.Declared

/-! # Members of a substituted refinement

A substitution that changes the info of a member rebuilds the refinement over a new class with
copies of all members. The copies are listed in the type and belong to the new class, but the class
does not list them, and lookups go by the class. So a member stays visible exactly if it is not
copied. -/

namespace Conformance

open SymM SymbolTable

/-- The substitutions; a view puts two of them in sequence. -/
inductive Substitution where
  | rename (src dst : List SymbolId)
  | types (src : List SymbolId) (dst : List Ty)
  | this (cls : SymbolId) (target : Ty)
  | view (pre : Ty) (owner : SymbolId)

def Substitution.apply (fuel : Nat) : Substitution → TypeMap
  | .rename src dst => substSym fuel src dst
  | .types src dst => substTypes fuel src dst
  | .this cls target => substThis fuel cls target
  | .view pre owner => fun ty => asSeenFrom fuel ty pre owner

/-- `ty` is a refined type over the members `ds` of `cls`, or over as many symbols and a class that
were entered when the table had `n` symbols or later. -/
def Rebuilt (n : Nat) (ds : List SymbolId) (cls : SymbolId) (ty : Ty) : Prop :=
  ∃ ps' ds' cls', ty = .refined ps' ds' cls' ∧ ds'.length = ds.length ∧
    (cls' = cls ∧ ds' = ds ∨ n ≤ cls'.val ∧ ∀ d' ∈ ds', n ≤ d'.val)

theorem Rebuilt.same {n : Nat} (ps : List Ty) (ds : List SymbolId)
    (cls : SymbolId) : Rebuilt n ds cls (.refined ps ds cls) :=
  ⟨ps, ds, cls, rfl, rfl, .inl ⟨rfl, rfl⟩⟩

theorem Rebuilt.trans {n m : Nat} {ps : List Ty} {ds ds1 : List SymbolId}
    {cls cls1 : SymbolId} {ty : Ty} (first : Rebuilt n ds cls (.refined ps ds1 cls1))
    (second : Rebuilt m ds1 cls1 ty) (le : n ≤ m) : Rebuilt n ds cls ty := by
  obtain ⟨ps1, _, _, same, length1, how1⟩ := first
  cases same
  obtain ⟨ps', ds', cls', rfl, length, how⟩ := second
  refine ⟨ps', ds', cls', rfl, length.trans length1, ?_⟩
  rcases how with ⟨rfl, rfl⟩ | ⟨new, copies⟩
  · exact how1
  · exact .inr ⟨Nat.le_trans le new, fun d' hd' => Nat.le_trans le (copies d' hd')⟩

section Copies

variable {rb : Rebinding} {t t' : SymbolTable} {n : Nat}

theorem SymM.OnlyBuilds.attains {α : Type} {x : SymM α}
    (h : x.OnlyBuilds) : Attains (n ≤ ·.size) False x fun _ => True := by
  intro t ht
  cases run : x t with
  | ok a t' => exact ⟨Nat.le_trans ht (h.extends run).size_le, trivial⟩
  | error e t' => exact id

/-- Symbols that are entered from now on are new. -/
theorem add_attains (r : SymbolTable → SymbolRecord) : Attains (n ≤ ·.size)
    False (modifyGet fun t => (t.nextId, t.add (r t)) : SymM SymbolId) (n ≤ ·.val) := fun t ht =>
  ⟨Nat.le_trans ht (t.extends_add (Nat.zero_le _) _).size_le, ht⟩

theorem update_attains (f : SymbolTable → SymbolTable)
    (size : ∀ t, (f t).size = t.size) : Attains (n ≤ ·.size) False (modify f : SymM PUnit) fun _ =>
    True := fun t ht => ⟨Nat.le_trans ht (size t).ge, trivial⟩

theorem Rebinding.copyRefined_rebuilt
    (hrb : ∀ cls target ty, (rb.replaceThis cls target ty).OnlyBuilds) {parents : List Ty}
    {ds : List SymbolId} {infos : List Ty} {cls : SymbolId} (length : infos.length = ds.length) :
    Attains (n ≤ ·.size) False (rb.copyRefined parents ds infos cls) (Rebuilt n ds cls) := by
  refine .get_bind fun t _ => (add_attains _).bind fun cls' new => ?_
  have member : ∀ p ∈ ds.zip infos, Attains (n ≤ ·.size) False (do
      let copy ← SymM.cloneSymbol p.1
      modify (·.update copy ({ · with owner := cls' }))
      SymM.setInfo copy (← rb.replaceThis cls (.this cls') p.2)
      return copy) (n ≤ ·.val) := fun p _ =>
    (add_attains _).bind fun copy hcopy => (update_attains _ fun _ => size_update ..).bind
      fun _ _ =>
      (hrb _ _ _).attains.bind fun _ _ => (update_attains _ fun _ => size_update ..).bind fun _ _ =>
        .pure hcopy
  refine (Attains.mapM (R := fun _ c => n ≤ c.val) member).bind fun ds' copies => ?_
  refine (update_attains _ fun _ => size_update ..).bind fun _ _ =>
    .pure ⟨parents, ds', cls', rfl, ?_, .inr ⟨new, ?_⟩⟩
  · rw [← copies.length_eq, List.length_zip, length, Nat.min_self]
  · intro d' mem
    obtain ⟨_, -, hd'⟩ := exists_of_forall₂ copies mem
    exact hd'

/-- Mapping the components of a refinement keeps its members or copies them all. -/
theorem Rebinding.mapOver_rebuilt (hrb : ∀ cls target ty, (rb.replaceThis cls target ty).OnlyBuilds)
    {f : TypeMap} (hf : ∀ ty, (f ty).OnlyBuilds) (ps : List Ty) (ds : List SymbolId)
    (cls : SymbolId) : Attains (n ≤ ·.size) False (rb.mapOver f (.refined ps ds cls))
    (Rebuilt n ds cls) := by
  refine (Attains.mapM (R := fun _ _ => True) fun p _ => (hf p).attains).bind fun ps' _ => ?_
  refine (Attains.mapM (R := fun _ _ => True) fun d _ =>
    .get_bind fun t _ => (hf (t.info d)).attains).bind fun infos' each =>
    .get_bind fun t _ => .ite (fun _ => ?_) fun _ => .pure ?_
  · exact copyRefined_rebuilt hrb each.length_eq.symm
  · split
    · exact .same ps ds cls
    · exact .same ps' ds cls

theorem Substitution.apply_onlyBuilds (fuel : Nat)
    (σ : Substitution) (ty : Ty) : (σ.apply fuel ty).OnlyBuilds := by
  cases σ with
  | rename src dst => exact TypeOperation.run_onlyBuilds fuel (.substSym src dst ty)
  | types src dst => exact TypeOperation.run_onlyBuilds fuel (.substTypes src dst ty)
  | this cls target => exact TypeOperation.run_onlyBuilds fuel (.substThis cls target ty)
  | view pre owner => exact TypeOperation.run_onlyBuilds fuel (.asSeenFrom ty pre owner)

theorem Substitution.apply_declaresNothing (fuel : Nat) (σ : Substitution) (ty : Ty) :
    (σ.apply fuel ty).DeclaresNothing := by
  cases σ with
  | rename src dst => exact (subst_declaresNothing fuel).rename src dst ty
  | types src dst =>
    exact keptByMaps_declares.substTypes baseClasses_declaresNothing fuel src dst ty
  | this cls target => exact (subst_declaresNothing fuel).replaceThis cls target ty
  | view pre owner => exact asSeenFrom_declaresNothing fuel ty pre owner

section Stages

variable {fuel : Nat} (ps : List Ty) (ds : List SymbolId) (cls : SymbolId)

theorem Rebinding.at_rebuilt {f : TypeMap} (hf : ∀ ty, (f ty).OnlyBuilds) : Attains
    (n ≤ ·.size) False ((Rebinding.at fuel).mapOver f (.refined ps ds cls)) (Rebuilt n ds cls) :=
  mapOver_rebuilt (fun cls target ty => Substitution.apply_onlyBuilds fuel (.this cls target) ty)
    hf ps ds cls

theorem substSym_rebuilt (src dst : List SymbolId) :
    Attains (n ≤ ·.size) False (substSym fuel src dst (.refined ps ds cls)) (Rebuilt n ds cls) := by
  cases fuel with
  | zero => exact .fail id
  | succ fuel =>
    exact .ite (fun _ => .pure (.same ps ds cls)) fun _ =>
      Rebinding.at_rebuilt ps ds cls (Substitution.apply_onlyBuilds fuel (.rename src dst))

theorem substThis_rebuilt (c : SymbolId) (target : Ty) : Attains
    (n ≤ ·.size) False (substThis fuel c target (.refined ps ds cls)) (Rebuilt n ds cls) := by
  cases fuel with
  | zero => exact .fail id
  | succ fuel =>
    exact .ite (fun _ => .pure (.same ps ds cls)) fun _ =>
      .ite (fun other => absurd other (by simp)) fun _ =>
      Rebinding.at_rebuilt ps ds cls (Substitution.apply_onlyBuilds fuel (.this c target))

theorem substTypes_rebuilt (src : List SymbolId) (dst : List Ty) : Attains
    (n ≤ ·.size) False (substTypes fuel src dst (.refined ps ds cls)) (Rebuilt n ds cls) := by
  cases fuel with
  | zero => exact .fail id
  | succ fuel =>
    exact .ite (fun _ => .pure (.same ps ds cls)) fun _ =>
      Rebinding.at_rebuilt ps ds cls (Substitution.apply_onlyBuilds fuel (.types src dst))

/-- A view replaces the prefix and then the parameters of the class, and between the two it looks
for their values. -/
theorem asSeenFrom_rebuilt (pre : Ty) (owner : SymbolId) : Attains
    (n ≤ ·.size) False (asSeenFrom fuel (.refined ps ds cls) pre owner) (Rebuilt n ds cls) := by
  cases fuel with
  | zero => exact .fail id
  | succ fuel =>
    refine .ite (fun _ => .pure (.same ps ds cls)) fun _ =>
      .record_bind fun t _ => .ite (fun _ => .pure (.same ps ds cls)) fun _ => ?_
    refine (substThis_rebuilt ps ds cls owner pre).bind fun seen first =>
      .ite (fun _ => .pure first) fun _ => ?_
    refine (TypeOperation.run_onlyBuilds fuel (.baseType pre owner)).attains.bind fun base _ => ?_
    obtain ⟨ps1, ds1, cls1, rfl, -, -⟩ := id first
    cases base with
    | ref =>
      exact (substTypes_rebuilt ps1 ds1 cls1 _ _).imp fun _ second =>
        first.trans second (Nat.le_refl n)
    | _ => exact .pure first

/-- A substitution keeps the members of a refined type or copies them all. -/
theorem Substitution.apply_rebuilt {σ : Substitution}
    {ps : List Ty} {ds : List SymbolId} {cls : SymbolId} {ty : Ty}
    (run : σ.apply fuel (.refined ps ds cls) t = .ok ty t') : Rebuilt t.size ds cls ty := by
  have rebuilt : Attains (t.size ≤ ·.size) False (σ.apply fuel (.refined ps ds cls))
    (Rebuilt t.size ds cls) := by
    cases σ with
    | rename src dst => exact substSym_rebuilt ps ds cls src dst
    | types src dst => exact substTypes_rebuilt ps ds cls src dst
    | this c target => exact substThis_rebuilt ps ds cls c target
    | view pre owner => exact asSeenFrom_rebuilt ps ds cls pre owner
  have answer := rebuilt t (Nat.le_refl _)
  rw [run] at answer
  exact answer.2

end Stages

end Copies

/-! ## Lookups -/

section Lookups

variable {t t' : SymbolTable} {ps : List Ty} {ds : List SymbolId}
  {cls d : SymbolId} {name : String} {fuel : Nat} {found : List SymbolId}

theorem declares_of_findMember (run : findMember fuel (.refined ps ds cls) name t = .ok found t')
    (hd : d ∈ found) : t.Declares d ∧ t'.name d = name := by
  obtain ⟨owners, classes, rfl⟩ := exists_of_findMember run
  have mem : d ∈ owners.flatMap (t'.declsNamed · name) :=
    (mem_of_mem_addVisible hd).resolve_left List.not_mem_nil
  obtain ⟨c, -, hc⟩ := List.mem_flatMap.1 mem
  obtain ⟨declared, named⟩ := List.mem_filter.1 hc
  rw [Bool.and_eq_true, beq_iff_eq] at named
  exact ⟨(baseClassesOf_declaresNothing fuel _).of_run classes ⟨c, Array.mem_toList_iff.1 declared⟩,
    named.1⟩

/-- Members of the refinement class, which are entered and not private. -/
structure SymbolTable.ListsMembers (t : SymbolTable)
    (cls : SymbolId) (ds : List SymbolId) : Prop where
  entered : cls.val < t.size
  members : ∀ m ∈ (t.get cls).decls, m.val < t.size
  declared : ∀ d ∈ ds, d ∈ (t.get cls).decls ∧ (t.get d).isHidden = false

theorem SymbolTable.ListsMembers.later (h : t.ListsMembers cls ds)
    (later : t.Extends t.size t') : t'.ListsMembers cls ds := by
  have same := later.get_eq h.entered
  have le := later.size_le
  refine ⟨by have := h.entered; omega, fun m hm => ?_, fun d hd => ?_⟩
  · rw [same] at hm
    exact Nat.lt_of_lt_of_le (h.members m hm) le
  · rw [same, later.get_eq (h.members d (h.declared d hd).1)]
    exact h.declared d hd

/-- Whether a member of a refinement is found depends on the members of the refinement alone. -/
theorem mem_findMember_iff (h : t.ListsMembers cls ds) (hd : d ∈ ds)
    (run : findMember fuel (.refined ps ds cls) (t.name d) t = .ok found t') :
    d ∈ found ↔ d ∈ t.visibleIn [cls] (t.name d) := by
  obtain ⟨declared, shown⟩ := h.declared d hd
  have builds : (findMember fuel (.refined ps ds cls) (t.name d)).OnlyBuilds :=
    TypeOperation.run_onlyBuilds fuel (.findMember (.refined ps ds cls) (t.name d))
  have later := builds.extends run
  have kept : ∀ m ∈ (t.get cls).decls, t'.get m = t.get m :=
    fun m hm => later.get_eq (h.members m hm)
  obtain ⟨owners, classes, rfl⟩ := exists_of_findMember run
  obtain ⟨rest, rfl, -⟩ := exists_of_refined_owners classes
  have own : d ∈ t'.declsNamed cls (t.name d) := by
    rw [declsNamed_congr (later.get_eq h.entered) kept]
    refine List.mem_filter.2 ⟨Array.mem_toList_iff.2 declared, ?_⟩
    simp [shown, SymbolTable.name]
  rw [← visibleIn_singleton_congr (later.get_eq h.entered) kept]
  unfold visibleIn
  rw [List.flatMap_cons, List.flatMap_singleton, mem_addVisible_append own]

end Lookups

/-- Where a member of a refined type is found, a substitution keeps it visible exactly if it does
not copy the members: copies are found under no name. -/
theorem Substitution.members_visible_iff_kept {t t' : SymbolTable} {fuel : Nat}
    {σ : Substitution} {ps : List Ty} {ds : List SymbolId} {cls : SymbolId} {ty : Ty}
    (entered : ∀ d, t.Declares d → d.val < t.size) (lists : t.ListsMembers cls ds)
    (run : σ.apply fuel (.refined ps ds cls) t = .ok ty t') :
    ∃ ps' ds' cls', ty = .refined ps' ds' cls' ∧ ds'.length = ds.length ∧ (cls' = cls → ds' = ds) ∧
      (∀ name, (∀ p ∈ ps', t'.Concrete p) →
        ∃ found t'', Converges (findMember · ty name) t' found t'') ∧
      ∀ (i : Nat) d d', ds[i]? = some d → ds'[i]? = some d' →
        (∃ fuel' found t'', findMember fuel' (.refined ps ds cls) (t.name d) t = .ok found t'' ∧
          d ∈ found) → ∀ fuel' name found t'', findMember fuel' ty name t' = .ok found t'' →
        (d' ∈ found ↔ cls' = cls ∧ t'.name d' = name) := by
  have later := (σ.apply_onlyBuilds fuel _).extends run
  obtain ⟨ps', ds', cls', rfl, length, how⟩ := apply_rebuilt run
  have kept : cls' = cls → ds' = ds := by
    rintro rfl
    rcases how with ⟨-, same⟩ | ⟨new, -⟩
    · exact same
    · exact absurd lists.entered (Nat.not_lt.2 new)
  refine ⟨ps', ds', cls', rfl, length, kept, fun name parents =>
    findMember_refined_converges parents, ?_⟩
  rintro i d d' hd hd' ⟨fuel0, found0, t0, before, foundBefore⟩ fuel' name found t'' after
  constructor
  · intro mem
    obtain ⟨declares, named⟩ := declares_of_findMember after mem
    have old : d'.val < t.size := entered d' ((σ.apply_declaresNothing fuel _).of_run run declares)
    have builds : (findMember fuel' (.refined ps' ds' cls') name).OnlyBuilds :=
      TypeOperation.run_onlyBuilds fuel' (.findMember (.refined ps' ds' cls') name)
    rcases how with ⟨same, -⟩ | ⟨-, copies⟩
    · refine ⟨same, ?_⟩
      rw [← named, SymbolTable.name, SymbolTable.name,
        (builds.extends after).get_eq (Nat.lt_of_lt_of_le old later.size_le)]
    · exact absurd old (Nat.not_lt.2 (copies d' (List.mem_of_getElem? hd')))
  · rintro ⟨rfl, rfl⟩
    obtain rfl := kept rfl
    obtain rfl : d = d' := Option.some.inj (hd.symm.trans hd')
    have mem : d ∈ ds' := List.mem_of_getElem? hd
    have visible := (mem_findMember_iff lists mem before).1 foundBefore
    rw [mem_findMember_iff (lists.later later) mem after]
    have sameMember : ∀ m ∈ (t.get cls').decls, t'.get m = t.get m :=
      fun m hm => later.get_eq (lists.members m hm)
    have sameName : t'.name d = t.name d := congrArg
      SymbolRecord.name (sameMember d (lists.declared d mem).1)
    rw [sameName, visibleIn_singleton_congr (later.get_eq lists.entered) sameMember]
    exact visible

/-- Members of the listed symbols are all the members there are. -/
theorem SymbolTable.entered_of_check {t : SymbolTable}
    (some : 0 < t.size) (check : ∀ i < t.size, ∀ d ∈ (t.get ⟨i⟩).decls, d.val < t.size)
    (d : SymbolId) (h : t.Declares d) : d.val < t.size := by
  obtain ⟨s, hd⟩ := h
  by_cases hs : s.val < t.size
  · exact check s.val hs d hd
  · rw [get_of_size_le (Nat.le_of_not_lt hs)] at hd
    exact check 0 some d hd

/-- A class `Q[P]`, and refinements with members `y : P` and `z : Any`. -/
def SymbolTable.genericRefinements : SymbolTable := SymM.after (do
  let pkg ← newPackage Known.rootClass "p"
  let q ← newClass pkg "Q" .empty
  let p ← newTypeParam q "P" .invariant
  modify (·.setTParams q [p])
  modify (·.setParents q [Known.anyRefType])
  let dependent ← newRefinementClass pkg
  let y ← newValue dependent "y" .empty
  SymM.setInfo y (.ref .noPrefix p [])
  let constant ← newRefinementClass pkg
  let z ← newValue constant "z" .empty
  SymM.setInfo z Known.anyType) .initial

/-- `Q[P] { z : Any }` becomes `Q[Any] { z : Any }` with the member that it had, which is found. -/
theorem kept_member_visible :
    let t := genericRefinements
    let ty (arg : Ty) : Ty := .refined [.ref (.this ⟨24⟩) ⟨26⟩ [arg]] [⟨31⟩] ⟨30⟩
    (∀ d, t.Declares d → d.val < t.size) ∧ t.ListsMembers ⟨30⟩ [⟨31⟩] ∧ ∃ t',
      substTypes 20 [⟨27⟩] [Known.anyType] (ty (.ref .noPrefix ⟨27⟩ []))
        t = .ok (ty Known.anyType) t' ∧
      ∃ found t'', Converges (findMember · (ty Known.anyType) "z") t' found t'' ∧ ⟨31⟩ ∈ found := by
  intro t ty
  have facts : 0 < t.size ∧ (∀ i < t.size, ∀ d ∈ (t.get ⟨i⟩).decls, d.val < t.size) ∧
      30 < t.size ∧ (∀ m ∈ (t.get ⟨30⟩).decls, m.val < t.size) ∧
      (∀ d ∈ [(⟨31⟩ : SymbolId)], d ∈ (t.get ⟨30⟩).decls ∧ (t.get d).isHidden = false) ∧
      26 < t.size ∧ (t.get ⟨26⟩).isClass = true ∧ 31 < t.size ∧ t.name ⟨31⟩ = "z" := by
    decide +kernel
  obtain ⟨some, check, lt, members, declared, ltClass, isClass, ltMember, name⟩ := facts
  have answers : (substTypes 20 [⟨27⟩] [Known.anyType] (ty (.ref .noPrefix ⟨27⟩ []))).run'
      t = .some (ty Known.anyType) ∧ (findMember 20 (ty (.ref .noPrefix ⟨27⟩ [])) "z").run'
      t = .some [⟨31⟩] := by decide +kernel
  clear_value t
  obtain ⟨t', run⟩ := exists_of_run' answers.1
  obtain ⟨t0, before⟩ := exists_of_run' answers.2
  have entered := entered_of_check some check
  have lists : t.ListsMembers ⟨30⟩ [⟨31⟩] := ⟨lt, members, declared⟩
  have applied : (Substitution.types [⟨27⟩] [Known.anyType]).apply
      20 (.refined [.ref (.this ⟨24⟩) ⟨26⟩ [.ref .noPrefix ⟨27⟩ []]] [⟨31⟩] ⟨30⟩)
      t = .ok (.refined [.ref (.this ⟨24⟩) ⟨26⟩ [Known.anyType]] [⟨31⟩] ⟨30⟩) t' := run
  have later := (Substitution.apply_onlyBuilds 20 _ _).extends applied
  obtain ⟨ps', ds', cls', same, -, -, ends, visible⟩ :=
    Substitution.members_visible_iff_kept entered lists applied
  cases same
  have parents : ∀ p ∈ [Ty.ref (.this ⟨24⟩) ⟨26⟩ [Known.anyType]], t'.Concrete p := by
    intro p hp
    obtain rfl := List.mem_singleton.1 hp
    exact .named (.here _) (by decide) ⟨⟨26⟩, rfl, by rw [later.get_eq ltClass, isClass]⟩
  obtain ⟨found, t'', converges⟩ := ends "z" parents
  obtain ⟨m, enough⟩ := converges.enough
  rw [← name] at before
  have named : t'.name ⟨31⟩ = "z" := by rw [SymbolTable.name, later.get_eq ltMember]; exact name
  have mem := (visible 0 ⟨31⟩ ⟨31⟩ rfl rfl ⟨20, [⟨31⟩], t0, before, by simp⟩
    m "z" found t'' (enough m (Nat.le_refl m))).2 ⟨rfl, named⟩
  exact ⟨entered, lists, t', run, found, t'', converges, mem⟩

/-- `Q[P] { y : P }` becomes `Q[Any] { y : Any }` with a copy of `y`, which is not found. -/
theorem copied_member_invisible :
    let t := genericRefinements
    let ty : Ty := .refined [.ref (.this ⟨24⟩) ⟨26⟩ [.ref .noPrefix ⟨27⟩ []]] [⟨29⟩] ⟨28⟩
    let ty' : Ty := .refined [.ref (.this ⟨24⟩) ⟨26⟩ [Known.anyType]] [⟨33⟩] ⟨32⟩
    (findMember 20 ty "y").run' t = some [⟨29⟩] ∧ (substTypes 20 [⟨27⟩] [Known.anyType] ty).run'
    t = some ty' ∧
      (do let _ ← substTypes 20 [⟨27⟩] [Known.anyType] ty
          return ((← get).name ⟨33⟩, ← findMember 20 ty' "y")).run'
            t = some ("y", []) := by decide +kernel

end Conformance

import Conformance.Proofs.Binders.Rules

/-! # Binders and their copies

A type lambda, method type or existential type whose component types contain no further binders, and
the same type over copies of the bound symbols. The two are one type under every naming, so the
rules do not tell them apart; but the types of a method's parameters are compared without
renaming. -/

namespace Conformance

open SymbolTable SymM CheckM

namespace SymbolTable

/-- Symbols of `t` that are not among `ps`. -/
def Free (t : SymbolTable) (ps : List SymbolId) (s : SymbolId) : Prop := s.val < t.size ∧ s ∉ ps

/-- Distinct symbols `ps` and a body `x`, whose component types contain no further binders and are
nested at most `k` deep. The infos of the symbols may mention one another, but no member of a
refinement mentions them. -/
structure Binds (t : SymbolTable) (k : Nat) (ps : List SymbolId) (x : Ty) : Prop where
  distinct : ps.Nodup
  entered : ∀ p ∈ ps, p.val < t.size
  known : Known.count ≤ t.size ∧ ∀ p ∈ ps, Known.count ≤ p.val
  infos : ∀ p ∈ ps, (t.info p).Flat t.info (·.val < t.size) (t.Free ps) k
  body : x.Flat t.info (·.val < t.size) (t.Free ps) k

namespace Copies

variable {t t' : SymbolTable} {ps cs : List SymbolId}
  (copies : Copies (·.relabel (newName ps cs) id) t t' ps cs) {x : Ty} {k fuel : Nat}
include copies

theorem newName_known (s : SymbolId) (hs : t.Free ps s) : newName ps cs s = s :=
    newName_of_notMem copies.length hs.2

theorem renamed_flat (flat : x.Flat t.info (·.val < t.size) (t.Free ps) k) :
    (x.relabel (newName ps cs) id).Flat t.info (fun _ => True) (·.val < t.size) k :=
  flat.rename (fun _ _ => trivial) fun s hs => ⟨hs.1, copies.newName_known s hs⟩

theorem notMem {s : SymbolId} (hs : s.val < t.size) : s ∉ cs :=
    fun mem => absurd (copies.new mem).1 (by omega)

theorem info_eq {t1 : SymbolTable} (ht1 : t'.Extends t'.size t1)
    {s : SymbolId} (hs : s.val < t.size) : t1.info s = t.info s := by
  rw [SymbolTable.info, (copies.grown.next ht1).get_eq hs, SymbolTable.info]

/-- A type and its copy are one under every naming. -/
theorem alike (flat : x.Flat t.info (·.val < t.size) (t.Free ps) k) (le : k ≤ fuel) :
    t'.Alike fuel ps cs x (x.relabel (newName ps cs) id) := by
  have old : ∀ {names}, names.length = ps.length →
    t'.Renames fuel ps names x (x.relabel (newName ps names) id) := by
    refine fun len => .of_run fun t1 ht1 => ?_
    refine ⟨_, t1, substSym_flat flat (fun s hs => hs.2) le len.symm fun s hs => ?_, ht1, rfl⟩
    exact copies.info_eq ht1 hs.1
  have new : ∀ {names}, names.length = ps.length → t'.Renames
      fuel cs names (x.relabel (newName ps cs) id) (x.relabel (newName ps names) id) := by
    refine fun {names} len => .of_run fun t1 ht1 => ?_
    have len' : cs.length = names.length := copies.length.symm.trans len.symm
    refine ⟨_, t1, substSym_flat (copies.renamed_flat flat)
      (fun s hs => copies.notMem hs) le len' fun s hs => ?_, ht1, ?_⟩
    · exact copies.info_eq ht1 hs
    · have joined : ∀ s : SymbolId, s.val < t.size →
        (newName cs names ∘ newName ps cs) s = newName ps names s :=
        fun s hs => newName_newName copies.length len' copies.distinct (copies.notMem hs)
      rw [Ty.relabel_relabel]
      exact flat.rename_congr joined fun s hs => joined s hs.1
  refine ⟨fun names len => ⟨_, old len, new len⟩, old copies.length.symm, ?_⟩
  have back : t'.Renames fuel cs ps (x.relabel (newName ps cs) id) (x.relabel (newName ps ps) id) :=
    new rfl
  rwa [flat.rename_eq (fun s _ => newName_self ps s) fun s _ => newName_self ps s] at back

theorem copied_original {p c : SymbolId} (mem : (p, c) ∈ ps.zip cs) :
    t'.get c = { t.get p with id := c, info := (t.info p).relabel (newName ps cs) id } := by
  obtain ⟨i, hi⟩ := List.mem_iff_getElem?.1 mem
  obtain ⟨hp, hc⟩ := List.getElem?_zip_eq_some.1 hi
  exact copies.record hp hc

end Copies

/-- Bounds that are not declared are those of every type. -/
theorem paramBounds_flat {t : SymbolTable} {S L : SymbolId → Prop} {k : Nat} {p : SymbolId}
    (flat : (t.info p).Flat t.info S L k) (known : ∀ s : SymbolId, s.val < Known.count → S s) :
    (t.paramBounds p).Flat t.info S L (k + 3) := by
  have undeclared : (Ty.bounds Known.nothingType Known.anyType).Flat t.info S L (k + 3) :=
    ⟨⟨known _ (by decide), known _ (by decide), nofun⟩,
      known _ (by decide), known _ (by decide), nofun⟩
  rw [paramBounds, boundsOf]
  split
  next lo hi declared =>
    rw [declared] at flat
    exact flat.mono (Nat.le_add_right k 3)
  next => exact undeclared
  next => exact undeclared
  next => exact ⟨flat.mono (Nat.le_add_right k 2), flat.mono (Nat.le_add_right k 2)⟩

theorem paramBounds_rename {t t' : SymbolTable} {p c : SymbolId}
    {f : SymbolId → SymbolId} (info : t'.info c = (t.info p).relabel f id)
    (known : ∀ s : SymbolId, s.val < Known.count → f s = s) :
    t'.paramBounds c = (t.paramBounds p).relabel f id := by
  have undeclared : (Ty.bounds Known.nothingType Known.anyType).relabel
    f id = .bounds Known.nothingType Known.anyType := by
    simp [Ty.relabel, Ty.relabelAll, Known.nothingType, Known.anyType, Known.scalaRef, known
      Known.scalaClass (by decide), known Known.nothing (by decide), known Known.any (by decide)]
  rw [paramBounds, boundsOf, info, paramBounds, boundsOf]
  cases t.info p <;> first | exact undeclared.symm | rfl

namespace Binds

variable {t : SymbolTable} {k : Nat} {ps : List SymbolId} {x : Ty} (binds : t.Binds k ps x)
include binds

theorem free_of_known (s : SymbolId) (hs : s.val < Known.count) : t.Free ps s := by
  have size := binds.known.1
  exact ⟨by omega, fun mem => absurd (binds.known.2 s mem) (by omega)⟩

variable {t' : SymbolTable}
  {cs : List SymbolId} (copies : Copies (·.relabel (newName ps cs) id) t t' ps cs) {fuel : Nat}
include copies

theorem entered_zip : ∀ pair ∈ ps.zip cs, pair.1.val < t'.size ∧ pair.2.val < t'.size := by
  rintro ⟨p, c⟩ mem
  obtain ⟨hp, hc⟩ := List.of_mem_zip mem
  exact ⟨Nat.lt_of_lt_of_le (binds.entered p hp) copies.grown.size_le, (copies.new hc).2⟩

theorem twins (fueled : k + 3 ≤ fuel) : t'.Twins fuel ps cs := by
  refine ⟨copies.length, binds.entered_zip copies, ?_, ?_, .of_run fun t1 ht1 => ?_⟩
  · rintro ⟨p, c⟩ mem
    have hp := binds.entered p (List.of_mem_zip mem).1
    simp only [copies.copied_original mem, copies.grown.get_eq hp]
    rfl
  · rintro ⟨p, c⟩ mem
    have hp := (List.of_mem_zip mem).1
    have info : t'.info c = (t.info p).relabel (newName ps cs)
      id := by rw [SymbolTable.info, copies.copied_original mem]
    have bounds : t'.paramBounds c = (t.paramBounds p).relabel (newName ps cs) id :=
      paramBounds_rename info fun s hs => copies.newName_known s (binds.free_of_known s hs)
    simp only [bounds, copies.grown.paramBounds_eq (binds.entered p hp)]
    exact copies.alike (paramBounds_flat (binds.infos p hp) fun s hs =>
      (binds.free_of_known s hs).1) fueled
  · have grown := copies.grown.next ht1
    have infos : ∀ p ∈ ps, (t1.info p).Flat t.info (·.val < t.size) (t.Free ps) k := fun p hp => by
      rw [copies.info_eq ht1 (binds.entered p hp)]
      exact binds.infos p hp
    obtain ⟨ds, t2, run, copies'⟩ := cloneSymbols_run (fun s hs => ⟨hs.2,
      Nat.lt_of_lt_of_le hs.1 grown.size_le⟩) (fun s hs => copies.info_eq ht1 hs.1) (fun p hp =>
      Nat.lt_of_lt_of_le (binds.entered p hp) grown.size_le) infos (by omega : k ≤ fuel)
    exact ⟨ds, t2, run, ht1.next copies'.grown, copies'.length.symm⟩

/-- The copies can be copied in turn. -/
theorem twins_symm (fueled : k + 3 ≤ fuel) : t'.Twins fuel cs ps := by
  refine (binds.twins copies fueled).symm (.of_run fun t1 ht1 => ?_)
  have infos : ∀ c ∈ cs, (t1.info c).Flat t.info (fun _ => True) (·.val < t.size) k := by
    intro c hc
    obtain ⟨i, p, hp, hc'⟩ := copies.original hc
    have record :
      t1.get c = { t.get p with id := c, info := (t.info p).relabel (newName ps cs) id } := by
      rw [ht1.get_eq (copies.new hc).2]
      exact copies.record hp hc'
    rw [SymbolTable.info, record]
    exact copies.renamed_flat (binds.infos p (List.mem_of_getElem? hp))
  have grown := copies.grown.next ht1
  obtain ⟨ds, t2, run, copies'⟩ := cloneSymbols_run (fun s hs =>
    ⟨copies.notMem hs, Nat.lt_of_lt_of_le hs grown.size_le⟩) (fun s hs => copies.info_eq ht1 hs)
    (fun c hc => Nat.lt_of_lt_of_le (copies.new hc).2 ht1.size_le) infos (by omega : k ≤ fuel)
  exact ⟨ds, t2, run, ht1.next copies'.grown, copies'.length.symm⟩

/-- Parameters whose types mention none of them have copies of the same types. -/
theorem sameParams (independent : ∀ p ∈ ps, (t.info p).Flat t.info (t.Free ps) (t.Free ps) k) :
    t'.SameParams ps cs := by
  refine ⟨copies.length, binds.entered_zip copies, ?_⟩
  rintro ⟨p, c⟩ mem
  have hp := (List.of_mem_zip mem).1
  have kept := (independent p hp).rename_eq copies.newName_known copies.newName_known
  simp only [SymbolTable.info, copies.copied_original mem, copies.grown.get_eq (binds.entered p hp)]
  exact kept.symm

end Binds

end SymbolTable

open SymbolTable

/-- A binder and its copy under new names are equivalent, and conform to each other where
conformance can be compared. The types of a method's parameters are not renamed, so they must not
mention the parameters. -/
theorem Config.copied_binder_equivalent {cfg : Config} {t : SymbolTable}
    {k : Nat} {ps : List SymbolId} {x : Ty} (binds : t.Binds k ps x) (fueled : k + 3 ≤ cfg.fuel) :
    ∃ cs x' t', cloneSymbols cfg.fuel ps t = .ok cs t' ∧ substSym cfg.fuel ps cs x t' = .ok x' t' ∧
      ∀ form : BinderForm, (∀ flags, form = .method flags → ∀ p ∈ ps, (t.info p).Flat
        t.info (t.Free ps) (t.Free ps) k) → ∀ s : CheckState, t'.Extends t'.size s.table →
          Granted (cfg.isSameType (form.type ps x) (form.type cs x')) s ∧
          Granted (cfg.isSameType (form.type cs x') (form.type ps x)) s ∧
          (form.Comparable cfg t' ps x → form.Comparable cfg t' cs x' →
            Granted (cfg.isSubtype (form.type ps x) (form.type cs x')) s ∧
            Granted (cfg.isSubtype (form.type cs x') (form.type ps x)) s) := by
  obtain ⟨cs, t', cloned, copies⟩ := cloneSymbols_run (fun s hs => ⟨hs.2, hs.1⟩)
    (fun _ _ => rfl) binds.entered binds.infos (by omega : k ≤ cfg.fuel)
  have body : t'.Alike cfg.fuel ps cs x (x.relabel (newName ps cs) id) :=
    copies.alike binds.body (by omega)
  have renamed : substSym cfg.fuel ps cs x t' = .ok (x.relabel (newName ps cs) id) t' :=
    substSym_flat binds.body (fun s hs => hs.2) (by omega) copies.length fun s hs =>
      copies.info_eq (.refl _ _) hs.1
  have twins : t'.Twins cfg.fuel ps cs := binds.twins copies fueled
  have twins' : t'.Twins cfg.fuel cs ps := binds.twins_symm copies fueled
  have body' : t'.Alike cfg.fuel cs ps (x.relabel (newName ps cs) id) x := body.symm copies.length
  refine ⟨cs, _, t', cloned, renamed, fun form independent s hs => ?_⟩
  have agrees : form.Agrees t' ps cs ∧ form.Agrees t' cs ps := by
    cases form with
    | method flags =>
      have params := binds.sameParams copies (independent flags rfl)
      exact ⟨params, params.symm⟩
    | poly | exist => exact ⟨trivial, trivial⟩
  obtain ⟨agrees, agrees'⟩ := agrees
  refine ⟨isSameType_granted twins body agrees hs,
    isSameType_granted twins' body' agrees' hs, fun first second => ?_⟩
  exact ⟨isSubtype_granted twins body agrees hs first second,
    isSubtype_granted twins' body' agrees' hs second first⟩

/-- A package with a class `Box[B]`, the parameters `T` and `U <: Box[T]` of a method, a second
method with the parameters `x : String` and `y : x.type`, and a refinement with a member `v : T`. -/
def SymbolTable.binders : SymbolTable := SymM.after (do
  let pkg ← newPackage Known.rootClass "p"
  let box ← newGeneric pkg "Box" "B" .invariant fun _ => [Known.anyRefType]
  let f ← newMethod pkg "f" .empty
  let u ← newTypeParam f "T" .invariant
  let v ← newTypeParam f "U" .invariant
  SymM.setInfo v (.bounds Known.nothingType (.ref (.this pkg) box [.ref .noPrefix u []]))
  let g ← newMethod pkg "g" .empty
  let x ← newParam g "x" (Known.javaLangRef Known.string)
  let _y ← newParam g "y" (.single .noPrefix x)
  let cls ← newRefinementClass pkg
  let w ← newValue cls "v" .empty
  SymM.setInfo w (.ref .noPrefix u [])) .initial

/-- `[T, U <: Box[T]] Box[U]` under new names is the same, and both conform to each other. -/
theorem copied_lambda_equivalent :
    let t := binders
    let ps : List SymbolId := [⟨29⟩, ⟨30⟩]
    let x : Ty := .ref (.this ⟨24⟩) ⟨26⟩ [.ref .noPrefix ⟨30⟩ []]
    let cfg : Config := ⟨{}, .typeConstraints, 20⟩
    t.Binds 4 ps x ∧ ∃ cs x' t', cloneSymbols 20 ps t = .ok cs t' ∧
    substSym 20 ps cs x t' = .ok x' t' ∧
      ∀ s : CheckState, t'.Extends t'.size s.table →
        Granted (cfg.isSameType (.poly ps x) (.poly cs x')) s ∧
        Granted (cfg.isSameType (.poly cs x') (.poly ps x)) s ∧ Granted (cfg.isSubtype (.poly ps x)
        (.poly cs x')) s ∧ Granted (cfg.isSubtype (.poly cs x') (.poly ps x)) s := by
  intro t ps x cfg
  let copy : SymM (List SymbolId × Ty) := do
    let cs ← cloneSymbols 20 ps
    return (cs, ← substSym 20 ps cs x)
  have facts : t.size = 36 ∧ t.info ⟨29⟩ = .noType ∧ (t.get ⟨26⟩).isAliasType = false ∧ t.info
      ⟨30⟩ = .bounds Known.nothingType (.ref (.this ⟨24⟩) ⟨26⟩ [.ref .noPrefix ⟨29⟩ []]) ∧ copy.run'
      t = some ([⟨36⟩, ⟨37⟩], .ref (.this ⟨24⟩) ⟨26⟩ [.ref .noPrefix ⟨37⟩ []]) := by decide +kernel
  clear_value t
  obtain ⟨size, info, notAlias, info', answer⟩ := facts
  have binds : t.Binds 4 ps x := by
    refine ⟨by decide, by simp [ps, size], ⟨by rw [size]; decide, by decide⟩, ?_, ?_⟩
    · simp [ps, info, info', Ty.Flat, size, Known.nothingType,
        Known.scalaRef, Known.scalaClass, Known.nothing]
    · simp [x, Ty.Flat, size]
  refine ⟨binds, ?_⟩
  have enough : 4 + 3 ≤ cfg.fuel := by decide
  obtain ⟨cs, x', t', cloned, renamed, equivalent⟩ := Config.copied_binder_equivalent binds enough
  have grown : t.Extends t.size t' := (TypeOperation.run_onlyBuilds 20 (.cloneSymbols ps)).extends
    cloned
  have run : copy t = .ok (cs, x') t' := by
    show (cloneSymbols 20 ps >>= fun cs => _) t = _
    rw [bind_ok cloned, bind_ok renamed]
    rfl
  obtain ⟨_, ran⟩ := exists_of_run' answer
  cases run.symm.trans ran
  have head : ∀ pre args, t'.Heads 0 (.ref pre ⟨26⟩ args) := fun pre args => by
    have entered : 26 < t.size := by rw [size]; decide
    exact .ref (Nat.lt_of_lt_of_le entered grown.size_le) (by rw [grown.get_eq entered, notAlias])
  have comparable : ∀ qs {pre args}, BinderForm.poly.Comparable cfg t' qs (.ref pre ⟨26⟩ args) :=
    fun qs _ _ =>
    ⟨Config.acceptsBare_of_typeConstraints rfl, (Heads.poly (head _ _)).findsSymbol (by decide) 20⟩
  refine ⟨_, _, t', cloned, renamed, fun s hs => ?_⟩
  obtain ⟨same, same', conform⟩ := equivalent .poly (fun _ h => by cases h) s hs
  exact ⟨same, same', conform (comparable _) (comparable _)⟩

/-- Neither a method whose second parameter has a type that mentions the first, nor a type lambda
over a refinement with a member that mentions the parameter, is recognized under new names. -/
theorem copied_binder_apart :
    let cfg : Config := ⟨{}, .typeConstraints, 20⟩
    let ask (t : SymbolTable) (x : CheckM Bool) :=
      if Counted (.fresh {} t 0 #[]) (x.after (.fresh {} t 0 #[])) then
        none else x.answer? (.fresh {} t 0 #[])
    let answers (form : BinderForm) (ps : List SymbolId) (x : Ty) : SymM _ := do
      let cs ← cloneSymbols cfg.fuel ps
      let x' ← substSym cfg.fuel ps cs x
      let t ← get
      let l := form.type ps x
      let r := form.type cs x'
      return [ask t (cfg.isSameType l r), ask t (cfg.isSameType r l), ask t (cfg.isSubtype l r),
        ask t (cfg.isSubtype r l)]
    (answers (.method {}) [⟨32⟩, ⟨33⟩] (.single .noPrefix ⟨32⟩)).run'
      binders = some [some false, some false, some false, some false] ∧
      (answers .poly [⟨29⟩] (.refined [Known.anyRefType] [⟨35⟩] ⟨34⟩)).run' binders =
        some [some true, some true, some true, some false] := by decide +kernel

end Conformance

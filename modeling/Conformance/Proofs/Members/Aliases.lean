import Conformance.Proofs.Classes.Lookup
import Conformance.Proofs.Declarations
import Conformance.Proofs.Endings.Termination
import Conformance.Proofs.Members.Visible

/-! # Members of a type behind an alias

Members of a reference are looked for in the linearization of the class that it is about; an alias
is expanded for that, so an alias of a class has the members of the class. Members of a refined type
are looked for in its refinement class and then in the classes of its parents. The refinement class
does not know the parents, so behind an alias only the members of the refinement itself are found,
and what is inherited is lost unless it is hidden anyway. -/

namespace Conformance

variable {k n : Nat} {name : String} {ty : Ty}

open SymM SymbolTable

/-- The symbol of a reference, or of the result of a function to a reference. -/
def Ty.head? : Ty → Option SymbolId
  | .ref _ s _ => some s
  | .poly _ (.ref _ s _) => some s
  | _ => none

namespace SymbolTable

variable (t : SymbolTable)

/-- `ty` becomes `u` when `n` aliases are expanded, each without parameters and a member of a
package. -/
inductive Unfolds : Nat → Ty → Ty → Prop where
  | here (u : Ty) : Unfolds 0 u u
  | step {n : Nat} {pre u : Ty} {s : SymbolId} {args : List Ty} (isAlias : (t.get s).isAliasType =
      true) (plain : t.tparams s = []) (owned : t.IsPackage (t.owner s))
      (rest : Unfolds n (t.info s) u) : Unfolds (n + 1) (.ref pre s args) u

/-- The type is a class, or a function to one. -/
def IsClassType (u : Ty) : Prop := ∃ c, u.head? = some c ∧ (t.get c).isClass = true

/-- Types made of classes by aliases and refinements. -/
inductive Concrete : Ty → Prop where
  | named {n : Nat} {ty u : Ty} (unfolds : t.Unfolds n ty u)
      (short : n < Limits.aliasSteps) (meant : t.IsClassType u) : Concrete ty
  | refined {n : Nat} {ty : Ty} {ps : List Ty} {ds : List SymbolId} {cls : SymbolId}
      (unfolds : t.Unfolds n ty (.refined ps ds cls)) (short : n < Limits.aliasSteps)
      (isClass : (t.get cls).isClass = true) (parents : ∀ p ∈ ps, Concrete p) : Concrete ty

/-- A refinement class as it is entered: with its members and without parents. -/
structure IsRefinement (cls : SymbolId) : Prop where
  entered : cls.val < t.size
  isClass : (t.get cls).isClass = true
  parents : (t.get cls).parents = []
  decls : ∀ d ∈ (t.get cls).decls, d.val < t.size
  remembered : ∀ cs, t.linearization? cls = some cs → cs = [cls]

variable {t} {t' : SymbolTable}

theorem Unfolds.congr {u : Ty} (same : t'.records = t.records)
    (h : t.Unfolds n ty u) : t'.Unfolds n ty u := by
  have get : t'.get = t.get := funext (get_congr same)
  induction h with
  | here u => exact .here u
  | @step n pre u s args isAlias plain owned rest ih =>
    have package : t'.IsPackage (t'.owner s) := by
      refine ⟨?_, ?_⟩
      · rw [SymbolTable.kind, SymbolTable.owner, get]
        exact owned.kind
      · rw [SymbolTable.flags, SymbolTable.owner, get]
        exact owned.flag
    refine .step (by rw [get, isAlias]) (by rw [tparams, get]; exact plain) package ?_
    rw [SymbolTable.info, get]
    exact ih

end SymbolTable

/-! ## Expansion -/

section Expansion

variable {t t1 t2 : SymbolTable} {pre u : Ty} {s c : SymbolId} {args : List Ty}

theorem expandAlias_converges (plain : t.tparams s = []) (owned : t.IsPackage (t.owner s)) :
    Converges (fun m => View.expandAlias m (asSeenFrom m) pre s args) t (t.info s) t := by
  have seen : Converges (fun m => asSeenFrom m (t.info s) pre (t.owner s)) t (t.info s) t :=
    .step (fun _ _ => nofun) (.always fun m => asSeenFrom_of_package owned.isPackageClass m _ _)
  have kept : Converges (fun m => substTypes m (t.tparams s) args (t.info s)) t (t.info s) t := by
    rw [plain]
    exact .step (fun _ _ => nofun) (.const rfl)
  have read : record s t = .ok (t.get s) t := rfl
  exact .bind (.const read) (.bind seen kept)

theorem normalizeUpTo_of_unfolds {u' : Ty} (h : t.Unfolds n ty u)
    (last : Converges (fun m => normalizeUpTo m k u) t u' t) :
    Converges (fun m => normalizeUpTo m (n + k) ty) t u' t := by
  induction h with
  | here u => rwa [Nat.zero_add]
  | @step n pre u s args isAlias plain owned rest ih =>
    rw [Nat.succ_add]
    have read : record s t = .ok (t.get s) t := rfl
    refine .bind (.const read) ?_
    have isEmpty : (t.get s).tparams.isEmpty = true := by
      have : (t.get s).tparams = [] := plain
      rw [this]
      rfl
    simp only [isAlias, isEmpty, if_true, Bool.true_or]
    exact .bind (expandAlias_converges plain owned) (ih last)

theorem not_isAliasType (isClass : (t.get c).isClass = true) : (t.get c).isAliasType = false := by
  cases isAlias : (t.get c).isAliasType with
  | false => rfl
  | true => rw [(notClass (.inl isAlias)).1] at isClass; cases isClass

/-- A class is in normal form but for the parameters that it awaits. -/
theorem normalizeUpTo_of_isClassType (h : t.IsClassType u) :
    ∃ u', Converges (fun m => normalizeUpTo m (k + 1) u) t u' t ∧ u'.head? = u.head? := by
  obtain ⟨c, head, isClass⟩ := h
  have notAlias := not_isAliasType isClass
  cases u with
  | ref pre s args =>
    obtain rfl : s = c := Option.some.inj head
    let awaits := !(t.get s).tparams.isEmpty && args.isEmpty && !t.isRaw (.ref pre s args)
    let form : Ty := if awaits then
      .lambda (t.get s).tparams (.ref pre s (t.paramRefs (t.get s).tparams)) else .ref pre s args
    have run : ∀ m, normalizeUpTo m (k + 1) (.ref pre s args) t = .ok form t := by
      intro m
      have read : record s t = .ok (t.get s) t := rfl
      unfold normalizeUpTo
      dsimp only
      rw [CheckM.bind_ok read, notAlias]
      change (if awaits = true then _ else _ : SymM Ty) t = _
      unfold form
      split <;> rfl
    refine ⟨form, .always run, ?_⟩
    unfold form Ty.lambda
    split
    next => split <;> rfl
    next => rfl
  | poly ps result => exact ⟨_, .const rfl, rfl⟩
  | _ => cases head

/-- The symbol of a type is that of its normal form. -/
theorem typeSymbol_of_normalize (isAlias : (t.get s).isAliasType = true)
    (expands : Converges (normalize · (.ref pre s args)) t u t1)
    (meant : ∀ m k, typeSymbolUpTo m (k + 2) u t1 = .ok c t1) (self : u = .ref pre s args → c = s) :
    Converges (typeSymbol · (.ref pre s args)) t c t1 := by
  have read : record s t = .ok (t.get s) t := rfl
  refine .bind (.const read) ?_
  simp only [isAlias, if_true]
  refine .bind expands ?_
  by_cases same : u = .ref pre s args
  · rw [self same]
    simp only [if_pos same]
    exact .const rfl
  · simp only [if_neg same]
    exact .always fun m => meant m 125

theorem typeSymbolUpTo_of_head {m : Nat} (head : u.head? = some c)
    (isClass : (t.get c).isClass = true) : typeSymbolUpTo m (k + 2) u t = .ok c t := by
  have notAlias := not_isAliasType isClass
  have direct : ∀ (j : Nat) (pre : Ty) (args : List Ty), typeSymbolUpTo m (j + 1)
    (.ref pre c args) t = .ok c t := by
    intro j pre args
    have read : record c t = .ok (t.get c) t := rfl
    unfold typeSymbolUpTo
    dsimp only
    rw [CheckM.bind_ok read, notAlias]
    rfl
  unfold Ty.head? at head
  split at head
  next =>
    cases head
    exact direct _ _ _
  next =>
    cases head
    exact direct _ _ _
  next => cases head

/-- Members of a reference are those of the class that it is about. -/
theorem memberOwners_of_typeSymbol {cs : List SymbolId}
    (head : ty.head? = some s) (meant : Converges (typeSymbol · ty) t c t1)
    (isClass : (t1.get c).isClass = true) (bases : baseClasses c t1 = .ok cs t2) :
    Converges (memberOwners · ty) t cs t2 ∧ Converges (baseClassesOf · ty) t cs t2 := by
  have found : Converges (fun m => do
      let s ← typeSymbol m ty
      let r ← record s
      if r.isClass then baseClasses s
      else if r.isAbstractType then
        let hi ← upperBound m (← widen m ty)
        if hi = ty then return []
        baseClassesOf m hi
      else return []) t cs t2 := by
    have read : record c t1 = .ok (t1.get c) t1 := rfl
    refine .bind meant (.bind (.const read) ?_)
    simp only [isClass, if_true]
    exact .const bases
  have classes : Converges (baseClassesOf · ty) t cs t2 := by
    refine .step (fun _ _ => nofun) ?_
    unfold Ty.head? at head
    split at head
    next => exact found
    next => exact found
    next => cases head
  have wide : (pure ty : SymM Ty) t = .ok ty t := rfl
  refine ⟨?_, classes⟩
  unfold Ty.head? at head
  split at head
  next => exact .bind (.const wide) classes
  next => exact .bind (.const wide) classes
  next => cases head

/-- Aliases without parameters that belong to packages are expanded without a trace. -/
theorem normalize_of_unfolds (unfolds : t.Unfolds n ty u) (short : n < Limits.aliasSteps)
    (meant : t.IsClassType u ∨ ∃ ps ds cls, u = .refined ps ds cls) :
    ∃ u', Converges (normalize · ty) t u' t ∧ (u' = u ∨ t.IsClassType u ∧ u'.head? = u.head?) := by
  obtain ⟨k, steps⟩ : ∃ k, Limits.aliasSteps = n + (k + 1) := ⟨Limits.aliasSteps - n - 1, by omega⟩
  unfold normalize
  rw [steps]
  rcases meant with classType | ⟨ps, ds, cls, rfl⟩
  · obtain ⟨u', last, head⟩ := normalizeUpTo_of_isClassType (k := k) classType
    exact ⟨u', normalizeUpTo_of_unfolds unfolds last, .inr ⟨classType, head⟩⟩
  · exact ⟨_, normalizeUpTo_of_unfolds unfolds (.const rfl), .inl rfl⟩

theorem typeSymbol_of_unfolds (unfolds : t.Unfolds n ty u)
    (short : n < Limits.aliasSteps) (head : u.head? = some c)
    (isClass : (t.get c).isClass = true) : Converges (typeSymbol · ty) t c t := by
  have found : ∀ {u'}, u'.head? = some c → ∀ m k, typeSymbolUpTo m (k + 2) u' t = .ok c t :=
    fun head' m k => typeSymbolUpTo_of_head head' isClass
  obtain ⟨u', expands, form⟩ := normalize_of_unfolds unfolds short (.inl ⟨c, head, isClass⟩)
  have head' : u'.head? = some c := by
    rcases form with rfl | ⟨-, same⟩
    · exact head
    · rw [same, head]
  cases unfolds with
  | here => exact .always fun m => found head m 126
  | step isAlias =>
    refine typeSymbol_of_normalize isAlias expands (found head') fun self => ?_
    rw [self] at head'
    exact (Option.some.inj head').symm

theorem exists_baseClasses (c : SymbolId) (t : SymbolTable) :
    ∃ cs t', baseClasses c t = .ok cs t' ∧ t'.records = t.records :=
  exists_linearize _ _ c t

/-- The classes of a type made of classes are found. -/
theorem baseClassesOf_of_concrete (h : t.Concrete ty) (same : t1.records = t.records) :
    SymM.Ends t1 (baseClassesOf · ty) fun _ t2 => t2.records = t.records := by
  have byClass : ∀ {ty : Ty} {s c : SymbolId} {t1 : SymbolTable}, t1.records = t.records →
      ty.head? = some s → Converges (typeSymbol · ty) t1 c t1 → (t.get c).isClass = true →
      SymM.Ends t1 (baseClassesOf · ty) fun _ t2 => t2.records = t.records := by
    intro ty s c t1 same head meant isClass
    obtain ⟨cs, t2, bases, same'⟩ := exists_baseClasses c t1
    exact ⟨cs, t2, (memberOwners_of_typeSymbol head
      meant (by rw [get_congr same, isClass]) bases).2, same'.trans same⟩
  induction h generalizing t1 with
  | @named n ty u unfolds short meant =>
    obtain ⟨c, head, isClass⟩ := meant
    have symbol := typeSymbol_of_unfolds (unfolds.congr same)
      short head (by rw [get_congr same, isClass])
    cases unfolds with
    | here => exact byClass same head symbol isClass
    | step => exact byClass same rfl symbol isClass
  | @refined n ty ps ds cls unfolds short isClass parents ih =>
    cases unfolds with
    | here =>
      refine .step (fun _ _ => nofun)
        (.foldlM (I := (·.records = t.records)) (fun out p hp t2 same2 => ?_) same)
      exact .bind (ih p hp same2) fun _ _ same3 => .pure same3
    | @step n pre _ s args isAlias plain owned rest =>
      have unfolds : t.Unfolds (n + 1) (.ref pre s args) (.refined ps ds cls) :=
        .step isAlias plain owned rest
      obtain ⟨u', expands, form⟩ := normalize_of_unfolds
        (unfolds.congr same) short (.inr ⟨_, _, _, rfl⟩)
      obtain rfl : u' = .refined ps ds cls := form.elim id fun ⟨⟨_, head, _⟩, _⟩ => nomatch head
      have isAlias' : (t1.get s).isAliasType = true := by rw [get_congr same, isAlias]
      exact byClass same rfl (typeSymbol_of_normalize isAlias' expands (fun _ _ => rfl) nofun)
        isClass

theorem findMember_refined_converges {ps : List Ty}
    {ds : List SymbolId} (parents : ∀ p ∈ ps, t.Concrete p) :
    ∃ found t', Converges (findMember · (.refined ps ds c) name) t found t' := by
  have ends : SymM.Ends t (baseClassesOf · (.refined ps ds c)) fun _ t' =>
    t'.records = t.records := by
    refine .step (fun _ _ => nofun)
      (.foldlM (I := (·.records = t.records)) (fun out p hp t1 same => ?_) rfl)
    exact .bind (baseClassesOf_of_concrete (parents p hp) same) fun _ _ same' => .pure same'
  obtain ⟨cs, t', owners, -⟩ := ends
  exact ⟨_, t', findMember_converges owners⟩

end Expansion

/-! ## Refinements -/

section Refinements

variable {t t1 : SymbolTable} {cls : SymbolId}

/-- A class without parents is all of its linearization. -/
theorem SymbolTable.IsRefinement.baseClasses (h : t.IsRefinement cls) :
    ∃ t', SymM.baseClasses cls t = .ok [cls] t' ∧ t'.records = t.records := by
  have read : (MonadState.get : SymM SymbolTable) t = .ok t t := rfl
  unfold SymM.baseClasses linearize
  rw [CheckM.bind_ok read]
  cases found : t.linearization? cls with
  | some cs => exact ⟨t, by rw [h.remembered cs found]; rfl, rfl⟩
  | none =>
    dsimp only
    rw [CheckM.bind_ok read, h.isClass, h.parents]
    exact ⟨t.rememberLinearization cls [cls], rfl, rfl⟩

/-- Entering symbols changes nothing about the members of a class. -/
theorem SymbolTable.IsRefinement.visibleIn {t' : SymbolTable} (h : t.IsRefinement cls)
    (later : t.Extends t.size t') : t'.visibleIn [cls] name = t.visibleIn [cls] name :=
  visibleIn_singleton_congr (later.get_eq h.entered) fun d hd => later.get_eq (h.decls d hd)

/-- A lookup in a refined type finds what its class declares, then what the classes of the parents
add. -/
theorem findMember_refined {fuel : Nat} {ps : List Ty} {ds all : List SymbolId}
    (h : t.IsRefinement cls) (run : findMember fuel (.refined ps ds cls) name t = .ok all t1) :
    t.visibleIn [cls] name <+: all ∧
      ∃ classes, baseClassesOf fuel (.refined ps ds cls) t = .ok classes t1 ∧
        (all = t.visibleIn [cls] name ↔ ∀ c ∈ classes, c ≠ cls →
        ∀ m ∈ t1.declsNamed c name, ∃ e ∈ t.visibleIn [cls] name, t1.hides e m = true) := by
  have builds : (findMember fuel (.refined ps ds cls) name).OnlyBuilds :=
    TypeOperation.run_onlyBuilds fuel (.findMember (.refined ps ds cls) name)
  obtain ⟨classes, owners, rfl⟩ := exists_of_findMember run
  obtain ⟨rest, rfl, fresh⟩ := exists_of_refined_owners owners
  have sum : t1.visibleIn (cls :: rest) name =
      t1.addVisible (t.visibleIn [cls] name) (rest.flatMap (t1.declsNamed · name)) := by
    rw [visibleIn_cons, h.visibleIn (builds.extends run)]
  rw [sum]
  refine ⟨prefix_addVisible, cls :: rest, owners, ?_⟩
  rw [addVisible_eq_self_iff]
  constructor
  · intro hidden c hc ne m hm
    have inherited : c ∈ rest := (List.mem_cons.1 hc).resolve_left ne
    exact hidden m (List.mem_flatMap.2 ⟨c, inherited, hm⟩)
  · intro hidden m hm
    obtain ⟨c, hc, hm⟩ := List.mem_flatMap.1 hm
    refine hidden c (List.mem_cons_of_mem _ hc) ?_ m hm
    rintro rfl
    exact fresh hc

end Refinements

/-- Members are looked up through an alias of a class as in the class. Through an alias of a refined
type, those of the refinement are found and no inherited ones, so the lookups agree exactly if every
inherited member is hidden. -/
theorem findMember_through_alias {t : SymbolTable} {pre : Ty} {s : SymbolId}
    {args : List Ty} (isAlias : (t.get s).isAliasType = true) (name : String) :
    (∀ n u, t.Unfolds n (.ref pre s args) u → n < 128 →
      (t.IsClassType u ∨ ∃ ps ds cls, u = .refined ps ds cls) →
      ∃ u', Converges (normalize · (.ref pre s args)) t u' t ∧
        (u' = u ∨ t.IsClassType u ∧ u'.head? = u.head?)) ∧
    ∀ u t1, Converges (normalize · (.ref pre s args)) t u t1 →
      (t1.IsClassType u → ∃ found t',
        Converges (findMember · (.ref pre s args) name) t found t' ∧
          Converges (findMember · u name) t1 found t') ∧
      ∀ ps ds cls, u = .refined ps ds cls → t1.IsRefinement cls → ∃ own t',
        Converges (findMember · (.ref pre s args) name) t own t' ∧
        ((∀ p ∈ ps, t1.Concrete p) → ∃ all t'', Converges (findMember · u name) t1 all t'') ∧
        ∀ fuel all t'', findMember fuel u name t1 = .ok all t'' → own <+: all ∧
          ∃ classes, baseClassesOf fuel u t1 = .ok classes t'' ∧
            (all = own ↔ ∀ c ∈ classes, c ≠ cls → ∀ m ∈ t''.declsNamed c name,
              ∃ e ∈ own, t''.hides e m = true) := by
  refine ⟨fun n u unfolds short meant => normalize_of_unfolds unfolds short meant,
    fun u t1 expands => ⟨?_, ?_⟩⟩
  · rintro ⟨c, head, isClass⟩
    obtain ⟨cs, t', bases, -⟩ := exists_baseClasses c t1
    have found : ∀ m k, typeSymbolUpTo m (k + 2) u t1 = .ok c t1 :=
      fun m k => typeSymbolUpTo_of_head head isClass
    have symbol : Converges (typeSymbol · (.ref pre s args)) t c t1 := by
      refine typeSymbol_of_normalize isAlias expands found fun self => ?_
      rw [self] at head
      exact (Option.some.inj head).symm
    have through := (memberOwners_of_typeSymbol rfl symbol isClass bases).1
    have direct := (memberOwners_of_typeSymbol head (.always fun m => found m 126) isClass bases).1
    exact ⟨_, t', findMember_converges through, findMember_converges direct⟩
  · rintro ps ds cls rfl refinement
    obtain ⟨t', bases, same⟩ := refinement.baseClasses
    have symbol : Converges (typeSymbol · (.ref pre s args)) t cls t1 :=
      typeSymbol_of_normalize isAlias expands (fun _ _ => rfl) nofun
    have through := (memberOwners_of_typeSymbol rfl symbol refinement.isClass bases).1
    refine ⟨t1.visibleIn [cls] name, t', ?_, fun parents =>
      ?_, fun fuel all t'' run => findMember_refined refinement run⟩
    · rw [← refinement.visibleIn (.of_records same)]
      exact findMember_converges through
    · exact findMember_refined_converges parents

/-- A package with a class `A { x; y }`, its refinement `A { y }`, and the aliases `T` of the
refined type and `S` of `T`. -/
def SymbolTable.renamedRefinement : SymbolTable := SymM.after (do
  let pkg ← newPackage Known.rootClass "p"
  let a ← newClass pkg "A" .empty
  modify (·.setParents a [Known.anyRefType])
  let _x ← newValue a "x" .empty
  let _y ← newValue a "y" .empty
  let cls ← newRefinementClass pkg
  let y ← newValue cls "y" .empty
  let refined ← refinedType cls [.ref (.this pkg) a []] [y]
  let whole ← newAliasType pkg "T"
  SymM.setInfo whole refined
  let again ← newAliasType pkg "S"
  SymM.setInfo again (.ref (.this pkg) whole [])) .initial

/-- The refinement's `y` hides the one of `A`, so it is found both ways. -/
theorem hidden_member_through_alias :
    let t := renamedRefinement
    let ty : Ty := .ref (.this ⟨24⟩) ⟨32⟩ []
    let refined : Ty := .refined [.ref (.this ⟨24⟩) ⟨26⟩ []] [⟨30⟩] ⟨29⟩
    (t.get ⟨32⟩).isAliasType = true ∧ t.IsRefinement ⟨29⟩ ∧ Converges (normalize · ty) t refined t ∧
      (∃ t', Converges (findMember · ty "y") t [⟨30⟩] t') ∧
        ∃ t', Converges (findMember · refined "y") t [⟨30⟩] t' := by
  intro t ty refined
  have facts : (t.get ⟨32⟩).isAliasType = true ∧ (t.get ⟨31⟩).isAliasType = true ∧
      t.tparams ⟨32⟩ = [] ∧ t.tparams ⟨31⟩ = [] ∧ t.owner ⟨32⟩ = ⟨24⟩ ∧ t.owner ⟨31⟩ = ⟨24⟩ ∧ t.kind
      ⟨24⟩ = .packageClass ∧ (t.flags ⟨24⟩).has .package = true ∧ t.info ⟨32⟩ = .ref (.this ⟨24⟩)
      ⟨31⟩ [] ∧ t.info ⟨31⟩ = refined ∧ (t.get ⟨26⟩).isClass = true := by decide +kernel
  obtain ⟨isAlias, isAlias', plain, plain', owner, owner', kind, flag, info, info', isClass⟩ :=
    facts
  have cls : 29 < t.size ∧ (t.get ⟨29⟩).isClass = true ∧ (t.get ⟨29⟩).parents = [] ∧
      (∀ d ∈ (t.get ⟨29⟩).decls, d.val < t.size) ∧ t.linearized = [] := by decide +kernel
  obtain ⟨entered, isClass', parents, decls, fresh⟩ := cls
  have answers : (findMember 20 ty "y").run' t = some [⟨30⟩] ∧
    (findMember 20 refined "y").run' t = some [⟨30⟩] := by
    decide +kernel
  have refinement : t.IsRefinement ⟨29⟩ := by
    refine ⟨entered, isClass', parents, decls, fun cs found => ?_⟩
    rw [linearization?, fresh] at found
    cases found
  have unfolds : t.Unfolds 2 ty refined := by
    refine .step isAlias plain (by rw [owner]; exact ⟨kind, flag⟩) ?_
    rw [info]
    refine .step isAlias' plain' (by rw [owner']; exact ⟨kind, flag⟩) ?_
    rw [info']
    exact .here refined
  obtain ⟨expansion, lookups⟩ := findMember_through_alias isAlias "y"
  obtain ⟨u, expands, form⟩ := expansion 2 refined unfolds (by decide) (.inr ⟨_, _, _, rfl⟩)
  obtain rfl : u = refined := by
    obtain same | ⟨⟨_, head, _⟩, _⟩ := form
    · exact same
    · cases head
  obtain ⟨own, t', through, ends, -⟩ := (lookups refined t expands).2 _ _ _ rfl refinement
  obtain ⟨all, t'', direct⟩ := ends fun p hp => by
    obtain rfl := List.mem_singleton.1 hp
    exact .named (.here _) (by decide) ⟨⟨26⟩, rfl, isClass⟩
  obtain rfl := through.eq_of_answer answers.1
  obtain rfl := direct.eq_of_answer answers.2
  exact ⟨isAlias, refinement, expands, ⟨t', through⟩, t'', direct⟩

/-- The `x` that the refined type inherits from `A` is not found behind the alias. -/
theorem inherited_member_lost_through_alias :
    let t := renamedRefinement
    let ty : Ty := .ref (.this ⟨24⟩) ⟨32⟩ []
    let refined : Ty := .refined [.ref (.this ⟨24⟩) ⟨26⟩ []] [⟨30⟩] ⟨29⟩
    (normalize 20 ty).run' t = some refined ∧ (findMember 20 ty "x").run' t = some [] ∧
      (findMember 20 refined "x").run' t = some [⟨27⟩] := by decide +kernel

end Conformance

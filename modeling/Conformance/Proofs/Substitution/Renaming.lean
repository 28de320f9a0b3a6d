import Conformance.Proofs.Classes.Lookup
import Conformance.Proofs.Nesting
import Conformance.Proofs.Substitution.Irrelevance

/-! # Renaming removes the old names

A type that is renamed mentions none of the symbols that were renamed, neither itself nor in the
infos of the symbols that it binds, if these are declared and following infos comes to an end. So
opening an existential leaves no trace of its quantifiers, and copies of symbols know nothing of the
originals. An existential is opened once an owner is found for the symbols that stand for its
quantifiers: without aliases it always is, and an alias of ever larger types has none. -/

namespace Conformance

open SymbolTable

variable {t t' : SymbolTable} {ty : Ty} {old : List SymbolId} {n : Nat}

/-- All symbols but those in `old`. -/
def Vocabulary.avoiding (old : List SymbolId) : Vocabulary where
  symbol s := s ∉ old

/-- Following components from `ty` comes to an end, and the symbols bound on the way are
declared. -/
structure SymbolTable.IsBuilt (t : SymbolTable) (ty : Ty) : Prop where
  founded : t.IsFounded ty
  declared {c : Ty} : t.Reaches ty c → ∀ b ∈ c.binders, b.val < t.size

theorem SymbolTable.IsBuilt.nested (h : t.IsBuilt ty) :
    ∃ need, ∀ n, need ≤ n → t.Nested {} [] n ty := by
  obtain ⟨founded, declared⟩ := h
  have any : ∀ ty, Vocabulary.Has {} ty := fun ty => by cases ty <;> trivial
  induction founded with
  | intro ty _ ih =>
    obtain ⟨need, enough⟩ := exists_enough fun c mem =>
      ih c mem fun reach => declared (.child mem reach)
    refine ⟨need + 2, fun n le => ?_⟩
    obtain ⟨n, rfl⟩ : ∃ m, n = m + 2 := ⟨n - 2, by omega⟩
    have below := enough (n + 1) (by omega)
    refine ⟨any ty, fun c mem => below c (mem_children.2 (.inl mem)), fun b mem =>
      ⟨declared (.refl ty) b mem, List.not_mem_nil, ?_⟩⟩
    obtain child | none := info_mem_children mem
    · exact below _ child
    · rw [none]
      exact ⟨trivial, nofun, nofun⟩

theorem SymbolTable.Nested.unmentioned {avoid : List SymbolId}
    (h : t.Nested (.avoiding old) avoid n ty) {s : SymbolId}
    (hs : s ∈ old) : t.mentionsSymbol ty s = false := by
  refine mentionsSymbol_eq_false.2 fun c reach names => ?_
  have has := h.has_of_reaches reach
  cases c with
  | this | single | ref =>
    cases names
    exact has hs
  | _ => cases names

section Copies

variable {α : Type} {avoid src dst : List SymbolId} {N : Vocabulary} {k base : Nat} {ok : Prop}

theorem substSym_avoiding (length : src.length = dst.length) (apart : ∀ d ∈ dst, d ∉ src)
    (k : Nat) : Substitutes {} (.avoiding src) k (substSym k src dst) :=
  (subst_substitutes k).1 (Nat.le_of_eq length) apart (fun _ _ h => h) fun _ _ => trivial

/-- A new symbol is given the info of a symbol, renamed. -/
theorem renameInfo_along (hf : Substitutes {} N k (substSym k src dst))
    (ready : t.Ready N avoid) {c s : SymbolId} (hc : c ∈ avoid) (new : base ≤ c.val)
    (hbase : base ≤ t.size) (hs : s.val < t.size) (hinfo : t.Nested {} avoid k (t.info s)) :
    Along (Rewrites N avoid k base) ok t (do SymM.setInfo c (← substSym k src dst (← SymM.info s)))
      fun t _ => c.val < t.size ∧ t.Nested N avoid k (t.info c) := by
  refine .get_bind fun t1 h1 => setInfo_along hc new
    (Nat.lt_of_lt_of_le (ready.below c hc) h1.grown.size_le) ?_
  refine hf.rewrites (fun _ => Nat.le_refl k) (ready.later h1.grown.size_le)
    (Nat.le_trans hbase h1.grown.size_le) (h1.infos (fun ty _ => ?_) hs hinfo)
  cases ty <;> trivial

/-- Symbols that were entered after the `old` ones are avoided until they have their infos, and
renaming leads to them. -/
theorem fresh_copies {copies : List SymbolId} (h : t.Continues t')
    (declared : ∀ s ∈ old, s.val < t.size) (new : ∀ c ∈ copies, t.size ≤ c.val ∧ c.val < t'.size)
    (length : old.length = copies.length) (k : Nat) : t.Carries [] t' copies ∧
    t'.Ready (.avoiding old) copies ∧ Substitutes {} (.avoiding old) k (substSym k old copies) := by
  have apart : ∀ s : SymbolId, t.size ≤ s.val → s ∉ old :=
    fun s later mem => absurd (declared s mem) (Nat.not_lt.2 later)
  refine ⟨fun b hb _ => ?_, ⟨fun s later => apart s (Nat.le_trans h.size_le later), fun c mem =>
    (new c mem).2⟩, substSym_avoiding length (fun c mem => apart c (new c mem).1) k⟩
  exact ⟨Nat.lt_of_lt_of_le hb h.size_le, fun mem => absurd hb (Nat.not_lt.2 (new b mem).1),
    congrArg SymbolRecord.info (h.get_eq hb)⟩

theorem Along.run {R : SymbolTable → SymbolTable → Prop}
    [IsPreorder SymbolTable R] {x : SymM α} {Q : SymbolTable → α → Prop}
    (h : Along R ok t x Q) (hok : ok) : ∃ a t', x t = .ok a t' ∧ R t t' ∧ Q t' a := by
  have run := h t (refl_of R t)
  generalize x t = r at run ⊢
  cases r with
  | ok a t' => exact ⟨a, t', rfl, run⟩
  | error => exact absurd hok run

end Copies

/-- A symbol that stands for a quantifier since `level`. -/
structure SymbolRecord.IsSkolem (r : SymbolRecord) (level : Nat) : Prop where
  skolem : r.flags.has .skolem = true
  existential : r.flags.has .existential = true
  deferred : r.flags.has .deferred = true
  type : r.isType = true
  noClass : r.isClass = false
  level : r.level = level

theorem newTypeLike_enters (q owner : SymbolId) (level : Nat)
    (t : SymbolTable) : ∃ r, SymM.newTypeLike q owner
    (.ofList [.skolem, .existential, .deferred]) level t = .ok t.nextId (t.add r) ∧
      ∀ id, SymbolRecord.IsSkolem { r with id } level := by
  have added : ∀ f ∈ [Flag.skolem, .existential, .deferred],
      ((t.get q).flags.union (.ofList [.skolem, .existential, .deferred])).has f = true := by
    intro f mem
    have listed : ∀ f ∈ [Flag.skolem, .existential, .deferred],
      (Flags.ofList [.skolem, .existential, .deferred]).has f = true := by
      decide
    rw [Flags.has_union, listed f mem, Bool.or_true]
  have noClass : ∀ r : SymbolRecord, let kind := if !r.isType ||
      r.isClass then SymbolKind.abstractType else r.kind
      kind.isType = true ∧ kind.isClass = false := by
    intro r kind
    by_cases other : !r.isType || r.isClass
    · rw [show kind = .abstractType from if_pos other]
      exact ⟨rfl, rfl⟩
    · rw [show kind = r.kind from if_neg other]
      simpa [SymbolRecord.isType, SymbolRecord.isClass] using other
  exact ⟨_, rfl, fun id => ⟨added _ (by decide), added _ (by decide),
    added _ (by decide), (noClass _).1, (noClass _).2, rfl⟩⟩

/-- What comes out when symbols of a type are renamed mentions none of them. -/
theorem SymbolTable.IsBuilt.renamed (built : t.IsBuilt ty)
    {src dst : List SymbolId} (length : src.length = dst.length) (hsrc : ∀ s ∈ src, s.val < t.size)
    (hdst : ∀ d ∈ dst, d ∉ src) : ∃ need, ∀ fuel, need ≤ fuel → ∃ ty' t',
      substSym fuel src dst ty t = .ok ty' t' ∧ ∀ s ∈ src, t'.mentionsSymbol ty' s = false := by
  obtain ⟨need, nested⟩ := built.nested
  refine ⟨need, fun fuel le => ?_⟩
  have ready : t.Ready (.avoiding src) [] := ⟨fun s new mem =>
    absurd (hsrc s mem) (Nat.not_lt.2 new), nofun⟩
  have renamed := substSym_avoiding length hdst fuel [] fuel t ty ready (nested fuel le)
  obtain ⟨ty', t', run, -, hty⟩ := renamed.run (Nat.le_refl _)
  exact ⟨ty', t', run, fun s mem => hty.unmentioned mem⟩

/-- The existential is opened after its owner was looked for, which leaves `t1`: the skolems are the
symbols entered next, and neither the type nor their infos mention a quantifier. -/
def SymbolTable.Opens (t : SymbolTable) (fuel : Nat)
    (qs : List SymbolId) (body : Ty) (level : Nat) (t1 : SymbolTable) : Prop :=
  ∃ ty t', skolemize fuel (.exist qs body) level t = .ok ty t' ∧
    (∀ q ∈ qs, t'.mentionsSymbol ty q = false) ∧
      ∀ c ∈ t1.nextIds qs.length, (t'.get c).IsSkolem level ∧
        ∀ q ∈ qs, t'.mentionsSymbol (t'.info c) q = false

theorem opens_of_owner {qs : List SymbolId} {body : Ty} {fuel : Nat}
    {owner : SymbolId} {t1 : SymbolTable} (nested : t.Nested {} [] (fuel + 1) (.exist qs body))
    (found : commonOwner fuel [.exist qs body] t = .ok owner t1)
    (level : Nat) : t.Opens fuel qs body level t1 := by
  obtain ⟨-, parts, binders⟩ := nested
  have declared : ∀ q ∈ qs, q.val < t.size := fun q mem => (binders q mem).1
  have h1 : t.Continues t1 :=
    (TypeOperation.run_onlyBuilds fuel (.commonOwner [.exist qs body])).extends found
  obtain ⟨t2, entered, h2, new, records⟩ := mapM_enters (t := t1)
    (R := fun _ _ r => r.IsSkolem level) fun q (_ : q ∈ qs) t' _ =>
    newTypeLike_enters q owner level t'
  have length := records.length_eq
  unfold SymbolTable.Opens
  generalize t1.nextIds qs.length = skolems at *
  have h : t.Continues t2 := h1.next h2
  obtain ⟨carried, ready, rename⟩ := fresh_copies h declared
    (fun c mem => (new c mem).imp_left (Nat.le_trans h1.size_le)) length fuel
  have infos : Along (Rewrites (.avoiding qs) skolems fuel t1.size) True
      t2 (copyInfos (substSym fuel) qs skolems) fun t _ => ∀ p ∈ qs.zip skolems, p.2.val < t.size ∧
      t.Nested (.avoiding qs) skolems fuel (t.info p.2) := by
    refine .forM (fun _ _ _ h => nested_info_lasts h) fun p mem => ?_
    obtain ⟨hq, hc⟩ := List.of_mem_zip mem
    have same : t2.info p.1 = t.info p.1 := congrArg SymbolRecord.info (h.get_eq (declared _ hq))
    refine renameInfo_along rename ready hc (new _ hc).1
      h2.size_le (Nat.lt_of_lt_of_le (declared _ hq) h.size_le) ?_
    exact same ▸ (binders _ hq).2.2.carry carried
  have opened := infos.bind fun _ t3 h3 done => ((rename.rewrites (fun _ : True => Nat.le_refl _)
    (ready.later h3.grown.size_le) (Nat.le_trans h2.size_le h3.grown.size_le)
    (((parts body List.mem_cons_self).carry carried).carry h3.carries)).imp id fun t4 h4 ty hty =>
      And.intro hty fun p mem => nested_info_lasts h4 (done p mem))
  obtain ⟨ty, t', run, grown, hty, hinfos⟩ := opened.run trivial
  refine ⟨ty, t', ?_, fun q mem => hty.unmentioned mem, fun c mem => ⟨?_, fun q hq => ?_⟩⟩
  · rw [skolemize, Renaming.skolemize, CheckM.bind_ok found, CheckM.bind_ok entered]
    exact run
  · obtain ⟨info, same⟩ := grown.rest (new c mem).2
    obtain ⟨skolem, existential, deferred, type, noClass, made⟩ :=
      (exists_of_forall₂ records mem).choose_spec.2
    exact same ▸ ⟨skolem, existential, deferred, type, noClass, made⟩
  · have listed :
      c ∈ (qs.zip skolems).map Prod.snd := by rwa [List.map_snd_zip (Nat.le_of_eq length.symm)]
    obtain ⟨p, pair, rfl⟩ := List.mem_map.1 listed
    exact (hinfos p pair).2.unmentioned hq

/-- With no alias in sight, the search for the owner of the skolems ends. -/
theorem SymbolTable.IsBuilt.opens {qs : List SymbolId}
    {body : Ty} (built : t.IsBuilt (.exist qs body)) (level : Nat) : ∃ need, ∀ fuel, need ≤ fuel →
      (∀ owner t1, commonOwner fuel [.exist qs body] t = .ok owner t1 →
        t.Opens fuel qs body level t1) ∧
      ((∀ x, t.Reaches (.exist qs body) x → t.IsNormal x) → t.Opens fuel qs body level t) := by
  obtain ⟨need, nested⟩ := built.nested
  refine ⟨need + ([Ty.exist qs body].flatMap t.reachable).toFinset.card + 1, fun fuel le => ?_⟩
  have opens := fun owner t1 (found : commonOwner fuel [.exist qs body] t = .ok owner t1) =>
    opens_of_owner (nested (fuel + 1) (by omega)) found level
  refine ⟨opens, fun normal => ?_⟩
  obtain ⟨owner, found, -⟩ := commonOwner_isCommonOwner (by simpa using normal)
    (show ([Ty.exist qs body].flatMap t.reachable).toFinset.card < fuel by omega)
  exact opens owner t found

/-- The infos of copies mention none of the originals. -/
theorem cloneSymbols_forget {syms : List SymbolId}
    (built : ∀ s ∈ syms, s.val < t.size ∧ t.IsBuilt (t.info s)) :
    ∃ need, ∀ fuel, need ≤ fuel → ∃ t', cloneSymbols fuel syms t = .ok (t.nextIds syms.length) t' ∧
      ∀ c ∈ t.nextIds syms.length, ∀ s ∈ syms, t'.mentionsSymbol (t'.info c) s = false := by
  obtain ⟨need, nested⟩ := exists_enough fun s mem => (built s mem).2.nested
  refine ⟨need, fun fuel le => ?_⟩
  obtain ⟨t2, entered, h, new, records⟩ := mapM_enters (t := t) (f := SymM.cloneSymbol)
    (R := fun _ _ r => t.Nested {} [] fuel r.info) fun s (mem : s ∈ syms) t1 h1 =>
      ⟨_, rfl, fun _ => (h1.get_eq (built s mem).1).symm ▸ nested fuel le s mem⟩
  have length := records.length_eq
  generalize t.nextIds syms.length = copies at *
  obtain ⟨carried, ready, rename⟩ := fresh_copies h (fun s mem => (built s mem).1) new length fuel
  have infos : Along (Rewrites (.avoiding syms) copies fuel t.size) True t2
      (copies.forM fun c => do SymM.setInfo c (← substSym fuel syms copies (← SymM.info c)))
      fun t _ => ∀ c ∈ copies, c.val < t.size ∧ t.Nested (.avoiding syms) copies fuel (t.info c) :=
    .forM nested_info_lasts fun c mem => renameInfo_along rename ready mem (new c mem).1
      h.size_le (new c mem).2 ((exists_of_forall₂ records mem).choose_spec.2.carry carried)
  obtain ⟨_, t', run, -, done⟩ := infos.run trivial
  refine ⟨t', ?_, fun c mem s hs => (done c mem).2.unmentioned hs⟩
  rw [cloneSymbols, Renaming.cloneSymbols, CheckM.bind_ok entered, CheckM.bind_ok run]
  rfl

/-- What comes out when symbols of a type are renamed mentions none of them, also in the infos of
the symbols that it binds. An existential is opened once the owner of the skolems is found, and it
is found where no alias is in sight. The infos of copies mention none of the originals. -/
theorem renaming_removes_symbols (t : SymbolTable) :
    (∀ ty src dst, t.IsBuilt ty → src.length = dst.length → (∀ s ∈ src, s.val < t.size) →
      (∀ d ∈ dst, d.val < t.size ∧ d ∉ src) → ∃ need, ∀ fuel, need ≤ fuel → ∃ ty' t',
        substSym fuel src dst ty t = .ok ty' t' ∧ ∀ s ∈ src, t'.mentionsSymbol ty' s = false) ∧
    (∀ qs body level, t.IsBuilt (.exist qs body) → ∃ need, ∀ fuel, need ≤ fuel →
      (∀ owner t1, commonOwner fuel [.exist qs body] t = .ok owner t1 →
        t.Opens fuel qs body level t1) ∧
      ((∀ x, t.Reaches (.exist qs body) x → t.IsNormal x) → t.Opens fuel qs body level t)) ∧
    ∀ syms, (∀ s ∈ syms, s.val < t.size ∧ t.IsBuilt (t.info s)) → ∃ need, ∀ fuel, need ≤ fuel →
      ∃ t', cloneSymbols fuel syms t = .ok (t.nextIds syms.length) t' ∧
        ∀ c ∈ t.nextIds syms.length, ∀ s ∈ syms, t'.mentionsSymbol (t'.info c) s = false :=
  ⟨fun _ _ _ built length hsrc hdst => built.renamed length hsrc fun d mem => (hdst d mem).2,
    fun _ _ level built => built.opens level, fun _ built => cloneSymbols_forget built⟩

/-- A class of `scala` with one argument. -/
def Ty.scalaApp (c : SymbolId) (arg : Ty) : Ty := .ref (.this Known.scalaClass) c [arg]

/-- A class of boxes, an alias `T[X] = Box[T[Box[X]]]`, and two quantifiers, one of them bounded by
boxes of the other. -/
def SymM.declareBoxes : SymM Unit := do
  let box ← newClass Known.scalaClass "Box" .empty
  let a ← newTypeParam box "A" .invariant
  modify (·.setTParams box [a])
  let syn ← newAliasType Known.scalaClass "T"
  let x ← newTypeParam syn "X" .invariant
  modify (·.setTParams syn [x])
  setInfo syn (.scalaApp box (.scalaApp syn (.scalaApp box (.ref .noPrefix x []))))
  let p ← newExistential Known.scalaClass "p"
  let q ← newExistential Known.scalaClass "q"
  setInfo q (.bounds Known.nothingType (.scalaApp box (.ref .noPrefix p [])))

/-- Two quantifiers, one bounded by boxes of the other: the class is renamed, they are opened, and
they are copied. -/
theorem bounded_quantifiers_are_renamed :
    let t := SymM.declareBoxes.after .initial
    let id (i : Nat) : SymbolId := ⟨Known.count + i⟩
    let body : Ty := .scalaApp (id 0) (.ref .noPrefix (id 5) [])
    t.IsBuilt (.exist [id 4, id 5] body) ∧ t.nextIds 2 = [id 6, id 7] ∧
    ∃ need, ∀ fuel, need ≤ fuel →
      (∃ ty t', substSym fuel [id 0] [Known.string] (.exist [id 4, id 5] body) t = .ok ty t' ∧
        t'.mentionsSymbol ty (id 0) = false) ∧
      t.Opens fuel [id 4, id 5] body 3 t ∧
      ∃ t', cloneSymbols fuel [id 4, id 5] t = .ok [id 6, id 7] t' ∧
        t'.mentionsSymbol (t'.info (id 7)) (id 4) = false := by
  intro t id body
  let ref (i : Nat) : Ty := .ref .noPrefix (id i) []
  let tys : List Ty := [.exist [id 4, id 5] body, .bounds
    Known.nothingType (.scalaApp (id 0) (ref 4)), Known.nothingType, body,
    .scalaApp (id 0) (ref 4), .this Known.scalaClass, ref 4, ref 5, .noPrefix, .noType]
  have layered : t.areLayered tys = true := by decide +kernel
  have declared : ∀ c ∈ tys, ∀ b ∈ c.binders, b.val < t.size := by decide +kernel
  have built : ∀ ty ∈ tys, t.IsBuilt ty := fun ty mem =>
    have ⟨founded, within⟩ := isFounded_of_areLayered layered ty mem
    ⟨founded, fun reach => declared _ (within _ reach)⟩
  have normal : ∀ ty ∈ tys, t.IsNormal ty := by
    simp only [tys, List.forall_mem_cons]
    refine ⟨trivial, trivial, ⟨by decide +kernel, .inl (by decide +kernel)⟩,
      ⟨by decide +kernel, .inr (by simp)⟩, ⟨by decide +kernel, .inr (by simp)⟩,
      trivial, ⟨by decide +kernel, .inl (by decide +kernel)⟩,
      ⟨by decide +kernel, .inl (by decide +kernel)⟩, trivial, trivial, nofun⟩
  have here := built _ (List.mem_cons_self : _ ∈ tys)
  have next : t.nextIds 2 = [id 6, id 7] := by decide +kernel
  obtain ⟨renames, opens, copies⟩ := renaming_removes_symbols t
  obtain ⟨n1, renamed⟩ := renames _ [id 0] [Known.string] here rfl (by decide +kernel)
    (by decide +kernel)
  obtain ⟨n2, opened⟩ := opens _ _ 3 here
  have sizes : ∀ s ∈ [id 4, id 5], s.val < t.size := by decide +kernel
  have infos : ∀ s ∈ [id 4, id 5], t.info s ∈ tys := by decide +kernel
  obtain ⟨n3, copied⟩ := copies [id 4, id 5] fun s mem => ⟨sizes s mem, built _ (infos s mem)⟩
  refine ⟨here, next, n1 + n2 + n3, fun fuel le =>
    ⟨?_, (opened fuel (by omega)).2 fun x reach => ?_, ?_⟩⟩
  · obtain ⟨ty, t', run, gone⟩ := renamed fuel (by omega)
    exact ⟨ty, t', run, gone _ List.mem_cons_self⟩
  · exact normal x ((isFounded_of_areLayered layered _ List.mem_cons_self).2 x reach)
  · obtain ⟨t', run, gone⟩ := copied fuel (by omega)
    rw [show [id 4, id 5].length = 2 from rfl, next] at run gone
    exact ⟨t', run, gone _ (by simp) _ List.mem_cons_self⟩

section Boxes

variable {b syn p : SymbolId}
  (isAlias : (t.get syn).isAliasType = true) (params : (t.get syn).tparams = [p])
  (info : (t.get syn).info = .scalaApp b (.scalaApp syn (.scalaApp b (.ref .noPrefix p []))))
  (package : (t.get (t.get syn).owner).isPackageClass = true)
  (plain : (t.get b).isAliasType = false)
include isAlias params info package plain

/-- The alias `T[X] = Box[T[Box[X]]]` is expanded once. -/
theorem normalize_boxes (arg : Ty) (fuel : Nat) : SymM.Attains (· = t) False
      (normalize fuel (.scalaApp syn arg)) (· = .scalaApp b (.scalaApp syn (.scalaApp b arg))) := by
  have isTerm :
    Ty.IsTerm [p] (.scalaApp b (.scalaApp syn (.scalaApp b (.ref .noPrefix p [])))) := by
    refine .app (List.forall_mem_singleton.2 (.app
      (List.forall_mem_singleton.2 (.app (List.forall_mem_singleton.2 ?_)))))
    exact .param List.mem_cons_self
  have inst : (Ty.scalaApp b (.scalaApp syn (.scalaApp b (.ref .noPrefix p [])))).inst [p] [arg] =
      .scalaApp b (.scalaApp syn (.scalaApp b arg)) := by simp [Ty.scalaApp, Ty.inst]
  have seen : SymM.Attains (· = t) False (asSeenFrom fuel (t.get syn).info (.this Known.scalaClass)
      (t.get syn).owner) (· = (t.get syn).info) := by
    cases fuel with
    | zero => exact .fail id
    | succ fuel =>
      refine .of_run ?_
      rintro _ rfl
      exact ⟨_, _, SymM.asSeenFrom_of_package package fuel _ _, rfl, rfl⟩
  have expands : SymM.Attains (· = t) False
      (View.expandAlias fuel (asSeenFrom fuel) (.this Known.scalaClass) syn [arg])
      (· = .scalaApp b (.scalaApp syn (.scalaApp b arg))) := by
    refine .record_bind fun _ same => ?_
    subst same
    refine seen.bind fun _ same => ?_
    rw [same, info, params, ← inst]
    exact (SymM.substTypes_term isTerm rfl fuel).of_ok False.elim
  refine .record_bind fun _ same => ?_
  subst same
  rw [if_pos isAlias, if_pos (by simp [params])]
  refine expands.bind fun ty same => ?_
  subst same
  refine SymM.Attains.record_bind fun _ same => ?_
  subst same
  rw [plain, if_neg (by simp)]
  exact .get_bind fun _ _ => .ite (fun raw => absurd raw (by simp)) fun _ => .pure rfl

/-- The finder goes from boxes to larger boxes. -/
theorem skolemize_boxes {q : SymbolId} (bare : t.info q = .noType)
    (arg : Ty) (fuel level : Nat) (ty : Ty) (t' : SymbolTable) :
    skolemize fuel (.exist [q] (.scalaApp syn arg)) level t ≠ .ok ty t' := by
  let boxes (k : Nat) : Ty := (Ty.scalaApp b)^[k] arg
  let form (k : Nat) : Ty := .scalaApp b (.scalaApp syn (boxes (k + 1)))
  have normal : ∀ k fuel x t', normalize fuel (.scalaApp syn (boxes k)) t = .ok x t' →
    x = form k ∧ t' = t := by
    intro k fuel x t' run
    have attained := normalize_boxes isAlias params info package plain (boxes k) fuel t rfl
    rw [run] at attained
    refine ⟨attained.2.trans ?_, attained.1⟩
    simp only [form, boxes, Function.iterate_succ_apply']
  have larger : StrictMono fun k => sizeOf (boxes k) := strictMono_nat_of_lt_succ fun k => by
    simp only [boxes, Function.iterate_succ_apply', Ty.scalaApp]
    simp +arith
  have new : Function.Injective form := by
    intro j k same
    simp only [form, Ty.scalaApp, Ty.ref.injEq, List.cons.injEq, and_true, true_and] at same
    exact Nat.succ_injective (larger.injective (congrArg sizeOf same))
  intro run
  rw [skolemize, Renaming.skolemize] at run
  obtain ⟨owner, t1, found, -⟩ := exists_of_bind run
  obtain ⟨f, t2, searched, -⟩ := exists_of_bind found
  rw [List.foldlM_cons] at searched
  obtain ⟨f', t3, traversed, -⟩ := exists_of_bind searched
  cases fuel with
  | zero => cases traversed
  | succ fuel =>
    have unseen : .exist [q] (.scalaApp syn arg) ∉ ({} : OwnerFinder).visited.elems :=
      List.not_mem_nil
    rw [OwnerFinder.traverse_normal fuel {} (show t.IsNormal (.exist [q] _) from trivial),
      if_neg unseen] at traversed
    have parts : t.localParts (.exist [q] (.scalaApp syn arg)) = [.scalaApp syn arg] := by
      simp [localParts, children, infos, bare, Ty.isPresent]
    rw [parts, List.foldlM_cons] at traversed
    obtain ⟨f1, t4, again, -⟩ := exists_of_bind traversed
    refine OwnerFinder.traverse_goes_on normal (fun _ => rfl) new fuel 0 ?_ f1 t4 again
    intro j _ mem
    rw [OwnerFinder.visited_note unseen] at mem
    cases List.mem_singleton.1 mem

end Boxes

/-- A type binds a symbol that is not there. A copy gets its identifier, and the copy's info before
it was renamed is mapped as that of the bound symbol. And an existential is never opened whose alias
leads from each type to a larger one. -/
theorem renaming_needs_declared_binders_and_owner :
    let id (i : Nat) : SymbolId := ⟨Known.count + i⟩
    let ref (i : Nat) (args : List Ty) : Ty := .ref .noPrefix (id i) args
    let declare : SymM Unit := do
      let _ ← SymM.newClass Known.scalaClass "X" .empty
      let _ ← SymM.newClass Known.scalaClass "Y" .empty
      let a ← SymM.newExistential Known.scalaClass "a"
      let b ← SymM.newExistential Known.scalaClass "b"
      SymM.setInfo a (.exist [id 5] (ref 0 []))
      SymM.setInfo b (ref 0 [ref 2 []])
    let t := declare.after .initial
    let ty : Ty := .exist [id 2, id 3] (ref 2 [])
    let boxes := SymM.declareBoxes.after .initial
    let growing : Ty := .exist [id 4] (.scalaApp (id 2) (ref 4 []))
    (t.IsFounded ty ∧ (∀ s ∈ [id 0, id 1], s.val < t.size) ∧
      (do
        let ty' ← substSym 9 [id 0] [id 1] ty
        return (← get).mentionsSymbol ty' (id 0) : SymM Bool).run' t = some true) ∧
    boxes.IsBuilt growing ∧ ∀ fuel level ty' t', skolemize
      fuel growing level boxes ≠ .ok ty' t' := by
  intro id ref declare t ty boxes growing
  have layered : t.areLayered [ty, .exist [id 5] (ref 0 []),
    ref 0 [ref 2 []], ref 0 [], ref 2 [], .noPrefix] = true := by
    decide +kernel
  let tys : List Ty :=
    [growing, .scalaApp (id 2) (ref 4 []), .this Known.scalaClass, ref 4 [], .noPrefix]
  have layered' : boxes.areLayered tys = true := by decide +kernel
  have declared : ∀ c ∈ tys, ∀ b ∈ c.binders, b.val < boxes.size := by decide +kernel
  obtain ⟨founded, within⟩ := isFounded_of_areLayered layered' growing List.mem_cons_self
  refine ⟨⟨(isFounded_of_areLayered
    layered ty List.mem_cons_self).1, by decide +kernel, by decide +kernel⟩,
    ⟨founded, fun reach => declared _ (within _ reach)⟩, ?_⟩
  exact skolemize_boxes (b := id 0) (p := id 3) (by decide +kernel) (by decide +kernel)
    (by decide +kernel) (by decide +kernel) (by decide +kernel) (by decide +kernel) (ref 4 [])

end Conformance

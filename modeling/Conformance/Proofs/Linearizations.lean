import Conformance.Proofs.Classes.Lookup
import Conformance.Proofs.History

/-! # What is remembered is what would be computed

Linearizations are remembered until parents change. Questions remember more of them and enter
symbols; a declaration enters a symbol or changes a record. Neither makes wrong what is remembered,
with one exception: the class behind a parent is found through aliases, and a new right-hand side of
an alias makes nothing be forgotten. So the step that sets an info is taken here only where it
leaves alone the parents of the classes in what is remembered. -/

namespace Conformance

variable {c s : SymbolId}

namespace SymbolTable

/-- The table with nothing remembered. -/
def cleared (t : SymbolTable) : SymbolTable := { t with linearized := [] }

variable {t t' : SymbolTable} {rank : SymbolId → Nat}

@[simp] theorem parentClass_cleared (ty : Ty) : t.cleared.parentClass ty = t.parentClass ty := by
  rw [parentClass_of_records (show t.cleared.records = t.records from rfl)]

theorem Ranked.cleared (h : t.Ranked rank) : t.cleared.Ranked rank := by
  refine ⟨h.bounded, fun {c d} hcd => h.lower ⟨hcd.1, ?_, hcd.2.2⟩⟩
  rw [← List.map_congr_left fun ty _ => parentClass_cleared ty]
  exact hcd.2.1

theorem Layered.cleared (h : t.Layered) : t.cleared.Layered := by
  obtain ⟨rank, hr⟩ := h.exists_rank
  exact hr.cleared.layered

theorem lineageUpTo_cleared (n : Nat) (s : SymbolId) :
    t.cleared.lineageUpTo (n + 1) s = if (t.get s).isClass then
      headed s (mixed (t.cleared.lineageUpTo n) ((t.get s).parents.map t.parentClass)) else [] := by
  rw [← List.map_congr_left fun ty _ => parentClass_cleared ty]
  rfl

/-! ## Members of a linearization -/

theorem mem_headed {tail : List SymbolId} (h : c ∈ tail) : c ∈ headed s tail := by
  by_cases same : c = s
  · subst same
    exact List.mem_cons_self
  · refine List.mem_cons_of_mem _ ?_
    split
    · exact List.mem_filter.2 ⟨h, bne_iff_ne.2 same⟩
    · exact h

theorem lineageUpTo_congr {P : SymbolId → Prop} (isClass : ∀ c, P c → (t'.get c).isClass =
    (t.get c).isClass) (closed : ∀ c, P c → ∀ p ∈ (t.get c).parents.map t.parentClass, P p)
    (n : Nat) (hs : P s) (parents : ∀ c ∈ t.cleared.lineageUpTo n s,
      (t'.get c).parents.map t'.parentClass = (t.get c).parents.map t.parentClass) :
    t'.cleared.lineageUpTo n s = t.cleared.lineageUpTo n s := by
  induction n generalizing s with
  | zero => rfl
  | succ n ih =>
    rw [lineageUpTo_cleared] at parents ⊢
    rw [lineageUpTo_cleared, isClass s hs]
    split
    next isClass =>
      rw [if_pos isClass] at parents
      rw [parents s List.mem_cons_self]
      congr 1
      refine mixed_congr fun p hp present => ih (closed s hs p hp) fun c hc => ?_
      exact parents c (mem_headed (mem_mixed_iff.2 ⟨p, hp, present, hc⟩))
    next => rfl

/-! ## What is remembered -/

/-- What is remembered is what would be computed if nothing were. -/
def Honest (t : SymbolTable) : Prop := ∀ (s : SymbolId) (classes : List SymbolId), t.linearization?
  s = some classes → classes = t.cleared.lineageUpTo Limits.linearizationDepth s

theorem Honest.of_forgotten (h : t.linearized = []) : t.Honest := by
  intro s classes found
  rw [linearization?, h] at found
  cases found

theorem Honest.found_eq (h : t.Honest) (hr : t.Ranked rank) {n : Nat} {classes : List SymbolId}
    (found : t.linearization? s = some classes) (hn : (t.get s).isClass = true → rank s < n) :
    classes = t.cleared.lineageUpTo n s := by
  rw [h s classes found]
  obtain hd | hd := Nat.le_total n Limits.linearizationDepth
  · exact hr.cleared.lineageUpTo_eq hn hd
  · exact (hr.cleared.lineageUpTo_eq (fun _ => hr.bounded s) hd).symm

/-- What is found on the way makes no difference, either. -/
theorem Honest.lineageUpTo_eq (h : t.Honest) (hr : t.Ranked rank)
    {n : Nat} (hn : (t.get s).isClass = true → rank s < n) :
    t.lineageUpTo n s = t.cleared.lineageUpTo n s := by
  induction n generalizing s with
  | zero =>
    cases found : t.linearization? s with
    | none => rw [lineageUpTo, found]; rfl
    | some classes => rw [lineageUpTo, found, Option.getD_some, h.found_eq hr found hn]
  | succ n ih =>
    cases found : t.linearization? s with
    | some classes => rw [lineageUpTo, found, Option.getD_some, h.found_eq hr found hn]
    | none =>
      rw [lineageUpTo, found, Option.getD_none, lineageUpTo_cleared]
      split
      next isClass =>
        congr 1
        refine mixed_congr fun p hp _ => ih fun hpc => ?_
        have := hr.lower ⟨isClass, hp, hpc⟩
        have := hn isClass
        omega
      next => rfl

/-! ## Declarations -/

theorem Standalone.lineageUpTo_eq (ht : t.Standalone) (h : t.Extends t.size t') (n : Nat)
    (hs : Scope.entered.In t.size s) : t'.cleared.lineageUpTo n s = t.cleared.lineageUpTo n s := by
  have get_eq : ∀ {c}, Scope.entered.In t.size c → t'.get c = t.get c := fun hc =>
    h.get_eq (Scope.lt_of_entered ht.known hc)
  refine lineageUpTo_congr (fun c hc => by rw [get_eq hc]) (fun c hc p hp => ?_) n hs fun c hc => ?_
  · obtain ⟨ty, hty, rfl⟩ := List.mem_map.1 hp
    exact ht.closed.at.parentClass ((ht.closed.records hc).parents ty hty)
  · have entered : Scope.entered.In t.size c := ht.forget.lineageUpTo_entered n hs c hc
    rw [get_eq entered]
    exact List.map_congr_left fun ty hty => ht.parentClass_eq
      h ((ht.closed.records entered).parents ty hty)

namespace Honest

variable (h : t.Honest)
include h

theorem add (ht : t.Standalone) (r : SymbolRecord) : (t.add r).Honest := by
  intro s classes found
  have entered : s.val < t.size := (ht.linearized _ (mem_of_lookup found)).1
  rw [ht.lineageUpTo_eq (t.extends_add (Nat.le_refl _) r) _ (.inl entered)]
  exact h s classes found

theorem update {f : SymbolRecord → SymbolRecord} (kind : ∀ r, (f r).kind = r.kind)
      (parents : ∀ p ∈ t.linearized, ∀ d ∈ p.2, ((t.update c f).get d).parents.map
      (t.update c f).parentClass = (t.get d).parents.map t.parentClass) :
    (t.update c f).Honest := by
  intro s classes found
  have isClass : ∀ d, ((t.update c f).get d).isClass = (t.get d).isClass := fun d => by
    obtain same | changed := t.get_update c f d
    · rw [same]
    · rw [changed, SymbolRecord.isClass, kind, SymbolRecord.isClass]
  refine (h s classes found).trans (lineageUpTo_congr (P := fun _ => True) (fun d _ => isClass d)
    (fun _ _ _ _ => trivial) _ trivial fun d hd => parents _ (mem_of_lookup found) d ?_).symm
  rwa [h s classes found]

/-- A change to what classes do not inherit through. -/
theorem update_rest {f : SymbolRecord → SymbolRecord}
    (hf : ∀ r, (f r).kind = r.kind ∧ (f r).info = r.info ∧ (f r).parents = r.parents) :
    (t.update c f).Honest := by
  have everything : ∀ ty : Ty, ty.Over (fun _ => True) (fun _ => True) :=
    Ty.over_all (fun _ => trivial) fun _ => trivial
  have kept : ∀ d, ((t.update c f).get d).kind = (t.get d).kind ∧ ((t.update c f).get d).info =
      (t.get d).info ∧ ((t.update c f).get d).parents = (t.get d).parents := fun d => by
    obtain same | changed := t.get_update c f d
    · rw [same]
      exact ⟨rfl, rfl, rfl⟩
    · rw [changed]
      exact hf _
  refine h.update (fun r => (hf r).1) fun _ _ d _ => ?_
  rw [(kept d).2.2]
  exact List.map_congr_left fun ty _ => parentClass_congr (fun s _ => ⟨(kept s).1, (kept s).2.1⟩)
    (fun s _ => everything (t.info s)) (everything ty)

end Honest

/-! ## Questions -/

theorem Grown.ranked {base : SymbolTable} (hb : base.Standalone)
    (hr : base.Ranked rank) (h : base.Grown t) : t.Ranked (Grown.rankIn base rank) := by
  refine ⟨Grown.rankIn_lt hr, fun {c d} ⟨hc, hd, hdc⟩ => ?_⟩
  rw [h.parentClasses_eq hb] at hd
  rw [h.get_eq (h.parentClass_lt hb hd)] at hdc
  exact h.rankIn_lower hb hr hc hd hdc

/-- What a question remembers is right if what was remembered before is. -/
theorem Honest.grown (h : t.Honest) (ht : t.Standalone)
    (hl : t.Layered) (grown : t.Grown t') : t'.Honest := by
  intro s classes found
  obtain ⟨rank, hr⟩ := hl.exists_rank
  rw [(grown.remembered found).2, lineage]
  cases before : t.linearization? s with
  | some classes =>
    have entered : s.val < t.size := (ht.linearized _ (mem_of_lookup before)).1
    rw [Option.getD_some, ht.lineageUpTo_eq grown.appended _ (.inl entered)]
    exact h s classes before
  | none =>
    have ranked := (grown.ranked ht hr).cleared
    rw [Option.getD_none, ← ranked.lineageUpTo_eq (fun _ => ranked.bounded s) (Nat.le_succ _),
      lineageUpTo_cleared]
    split
    · rw [grown.parentClasses_eq ht]
      congr 1
      refine mixed_congr fun p hp _ => ?_
      rw [h.lineageUpTo_eq hr fun _ => hr.bounded p,
        ht.lineageUpTo_eq grown.appended _ (.inl (grown.parentClass_lt ht hp))]
    · rfl

end SymbolTable

/-- The variables hold what is declared. -/
def VarsEntered (t : SymbolTable) (vars : Array (VarInfo Ty)) : Prop :=
  ∀ (i : Nat) (info : VarInfo Ty), vars[i]? = some info → Scope.entered.In t.size info

theorem instantiating_entered : Instantiating .entered (fun _ => True) VarsEntered where
  grow _ h grown _ _ i info hi := (h i info hi).mono grown.size_le
  info h _ hi := h _ _ hi
  bound {t vars v i ty} side _ h _ hi hty _ j info hj := by
    rw [Array.getElem?_setIfInBounds] at hj
    split at hj
    · split at hj
      · exact Option.some.inj hj ▸ (EntersType.bound side).in_scope i (h _ _ hi) hty
      · cases hj
    · exact h j info hj
  inst {t vars v i ty} _ h _ hi hty _ j info hj := by
    rw [Array.getElem?_setIfInBounds] at hj
    split at hj
    · split at hj
      · exact Option.some.inj hj ▸ EntersType.inst.in_scope i (h _ _ hi) hty
      · cases hj
    · exact h j info hj
  fresh level _ h horigin := by
    refine ⟨fun j info hj => ?_, trivial, trivial⟩
    rw [Array.getElem?_push] at hj
    split at hj
    · exact Option.some.inj hj ▸ ⟨horigin, .nil, .nil, .none⟩
    · exact h j info hj

namespace SymbolTable

variable {t t' : SymbolTable}

/-- A question about what is declared, asked of a checker whose variables hold what is declared or
of the table. -/
inductive AskedWithin : SymbolTable → SymbolTable → Prop
  | checker (cfg : Config) (natural : cfg.annotations.Natural)
    (safe : cfg.annotations.Safe .entered) (op : Operation)
    (s : CheckState) (hop : op.Names s.table.size)
    (hvars : VarsEntered s.table s.vars.vars) : AskedWithin s.table ((cfg.run op).after s).table
  | table (fuel : Nat) (op : TypeOperation) {t : SymbolTable} (hop : op.Within .entered t.size) :
    AskedWithin t ((op.run fuel).after t)

theorem AskedWithin.fresh (cfg : Config) (natural : cfg.annotations.Natural)
    (safe : cfg.annotations.Safe .entered) (op : Operation)
    (t : SymbolTable) (queries : Nat) (events : Array QueryEvent) (hop : op.Names t.size) :
    t.AskedWithin ((cfg.run op).after (.fresh cfg.policy t queries events)).table :=
  .checker cfg natural safe op (.fresh cfg.policy t queries events) hop fun _ _ hi => by cases hi

theorem AskedWithin.asked (h : t.AskedWithin t') : t.Asked t' := by
  cases h with
  | checker cfg natural _ op s => exact .checker cfg natural op s
  | table fuel op hop =>
    refine .table fuel op ?_ _
    cases op with
    | mapOver => exact hop.elim
    | _ => rfl

theorem AskedWithin.closed (ht : t.Standalone) (h : t.AskedWithin t') :
    Scope.entered.Closed t' := by
  cases h with
  | checker cfg natural safe op s hop hvars =>
    cases hask : op.isQuestion with
    | true =>
      exact (Config.run_onward instantiating_entered
        safe.keeping hop.within (fun _ _ => ⟨trivial, trivial⟩) hask ht.closed hvars).closed
    | false =>
      cases op with
      | freshVar | suspend | resume | resetStats => exact ht.closed
      | _ => cases hask
  | table fuel op hop =>
    have run := op.run_safe (b := t.size) fuel hop t ht.closed (Nat.le_refl _) (Nat.le_refl _)
    unfold SymM.after
    generalize op.run fuel t = r at run ⊢
    cases r with
    | ok a t' => exact run.1
    | error e t' => exact run.1

theorem Standalone.grown_closed (ht : t.Standalone)
    (grown : t.Grown t') (closed : Scope.entered.Closed t') : t'.Standalone := by
  have known := ht.known
  have size := grown.appended.size_le
  refine ⟨Nat.le_trans known size, fun i hi => ?_, ?_, fun i hi =>
    closed.records (.inl hi), fun p hp => ?_⟩
  · by_cases old : i < t.size
    · rw [grown.get_eq old]
      exact ht.ids i old
    · have new := grown.appended.new (Nat.le_of_not_lt old) hi
      obtain ⟨r, hr, id⟩ := Option.map_eq_some_iff.1 new
      rw [get_eq_getD, hr, Option.getD_some, id]
  · rw [kind, grown.get_eq (Nat.lt_of_lt_of_le (by decide) known)]
    exact ht.absent
  · obtain ⟨classes, found⟩ : ∃ classes, t'.linearization? p.1 = some classes := by
      refine Option.isSome_iff_exists.1 ?_
      rw [linearization?, List.lookup_isSome_iff]
      exact ⟨p, hp, beq_self_eq_true _⟩
    exact ⟨(grown.remembered found).1, closed.linearized hp .inl⟩

/-! ## Sessions -/

/-- One step of a session: a declaration that names what is declared by then, or a question about
what is declared, asked while inheritance is layered. -/
inductive Step : SymbolTable → SymbolTable → Prop
  | add {t : SymbolTable} {r : SymbolRecord} (hr : Scope.entered.Fits (t.size + 1) r) :
    Step t (t.add r)
  /-- The classes behind parents may change only for classes in no remembered linearization. -/
  | setInfo {t : SymbolTable} {info : Ty} (s : SymbolId) (hinfo : Scope.entered.In t.size info)
    (parents : ∀ p ∈ t.linearized, ∀ c ∈ p.2,
      (t.get c).parents.map (t.setInfo s info).parentClass = (t.get c).parents.map t.parentClass) :
        Step t (t.setInfo s info)
  | setTParams {t : SymbolTable} {ps : List SymbolId}
    (s : SymbolId) (hps : Scope.entered.In t.size ps) : Step t (t.setTParams s ps)
  | setFlags (t : SymbolTable) (s : SymbolId) (flags : Flags) : Step t (t.setFlags s flags)
  | setParents {t : SymbolTable} {parents : List Ty}
    (s : SymbolId) (hparents : Scope.entered.In t.size parents) : Step t (t.setParents s parents)
  | addDecl {t : SymbolTable} {member : SymbolId} (cls : SymbolId)
    (hmember : Scope.entered.In t.size member) : Step t (t.addDecl cls member)
  | setCompanion {t : SymbolTable} {companion : SymbolId} (s : SymbolId)
    (hcompanion : Scope.entered.In t.size companion) : Step t (t.update s ({ · with companion }))
  | ask {t t' : SymbolTable} (layered : t.Layered) (h : t.AskedWithin t') : Step t t'

/-- Declarations keep a table standalone; this does not need that infos leave linearizations
alone. -/
theorem Step.standalone (ht : t.Standalone) (h : t.Step t') : t'.Standalone := by
  cases h with
  | add hr => exact ht.add hr
  | setInfo s hinfo => exact ht.setInfo s hinfo
  | setTParams s hps => exact ht.setTParams s hps
  | setFlags s flags => exact ht.setFlags s flags
  | setParents s hparents => exact ht.setParents s hparents
  | addDecl cls hmember => exact ht.addDecl cls hmember
  | setCompanion s hcompanion => exact ht.setCompanion s hcompanion
  | ask layered h => exact ht.grown_closed (ht.grown.asked ht layered h.asked) (h.closed ht)

theorem Step.honest (ht : t.Standalone) (honest : t.Honest) (h : t.Step t') : t'.Honest := by
  cases h with
  | @add r _ => exact honest.add ht r
  | @setInfo info s _ parents =>
    refine honest.update (fun _ => rfl) fun p hp c hc => ?_
    have kept : ((t.setInfo s info).get c).parents = (t.get c).parents := by
      obtain same | changed := t.get_update s ({ · with info }) c
      · exact congrArg SymbolRecord.parents same
      · exact (congrArg SymbolRecord.parents changed).trans rfl
    exact (congrArg (List.map (t.setInfo s info).parentClass) kept).trans (parents p hp c hc)
  | setTParams | setFlags | setCompanion => exact honest.update_rest fun _ => ⟨rfl, rfl, rfl⟩
  | setParents => exact .of_forgotten rfl
  | addDecl cls =>
    unfold SymbolTable.addDecl
    split
    · exact honest.update_rest fun _ => ⟨rfl, rfl, rfl⟩
    · exact honest
  | ask layered h => exact honest.grown ht layered (ht.grown.asked ht layered h.asked)

/-- A table as it is after any number of steps. -/
theorem Step.run {t0 t : SymbolTable} (ht0 : t0.Standalone)
    (honest : t0.Honest) (steps : Relation.ReflTransGen Step t0 t) : t.Standalone ∧ t.Honest := by
  induction steps with
  | refl => exact ⟨ht0, honest⟩
  | tail _ step ih => exact ⟨step.standalone ih.1, step.honest ih.1 ih.2⟩

end SymbolTable

/-- What an operation on the table answers, if it does. -/
def SymM.answer? {α : Type} (x : SymM α) (t : SymbolTable) : Option α :=
  match x t with
  | .ok a _ => some a
  | .error _ _ => none

namespace SymbolTable

variable {t : SymbolTable}

theorem Standalone.baseClasses_answer (ht : t.Standalone) (hl : t.Layered) (c : SymbolId) :
    (SymM.baseClasses c).answer? t = some (t.lineageUpTo Limits.linearizationDepth c) := by
  obtain ⟨rank, hr⟩ := hl.exists_rank
  obtain ⟨t', run, -⟩ := SymM.baseClasses_recalls ht hl ht.grown c t rfl ht.grown
  rw [SymM.answer?, run, hr.lineage_eq]

/-- After any session that begins with nothing remembered, the base classes of every class are what
they would be if nothing were remembered. -/
theorem base_classes_ignore_what_is_remembered {t0 t : SymbolTable} (ht0 : t0.Standalone)
    (fresh : t0.linearized = []) (steps : Relation.ReflTransGen Step t0 t) (layered : t.Layered)
    (c : SymbolId) : ∃ classes, (SymM.baseClasses c).answer? t = some classes ∧
    (SymM.baseClasses c).answer? t.cleared = some classes := by
  obtain ⟨ht, honest⟩ := Step.run ht0 (.of_forgotten fresh) steps
  obtain ⟨rank, hr⟩ := layered.exists_rank
  refine ⟨t.lineageUpTo Limits.linearizationDepth c, ht.baseClasses_answer layered c, ?_⟩
  rw [honest.lineageUpTo_eq hr fun _ => hr.bounded c]
  exact ht.forget.baseClasses_answer layered.cleared c

end SymbolTable

/-- Classes `A` and `B`, an alias `T` of `A` and a class `C` that inherits through `T`. -/
def SymM.declareThroughAlias : SymM Unit := do
  let a ← newClass Known.scalaClass "A" .empty
  let _ ← newClass Known.scalaClass "B" .empty
  let synonym ← newAliasType Known.scalaClass "T"
  setInfo synonym (Known.scalaRef a)
  let c ← newClass Known.scalaClass "C" .empty
  modify (·.setParents c [Known.scalaRef synonym])

namespace SymbolTable

/-- A class is linearized, then another alias is given a new right-hand side, then a checker
compares two classes. -/
theorem base_classes_after_other_alias :
    let cfg : Config := ⟨{}, .typeConstraints, 9⟩
    let cls (parents : List Ty) : SymbolRecord :=
      { id := .none, name := "C", owner := Known.scalaClass, kind := .plainClass, flags := .empty
        parents }
    let synonym (info : Ty) : SymbolRecord :=
      { id := .none, name := "T", owner := Known.scalaClass, kind := .aliasType, flags := .empty
        info }
    let id (i : Nat) : SymbolId := ⟨Known.count + i⟩
    let ref (i : Nat) : Ty := Known.scalaRef (id i)
    let t := (((SymbolTable.initial.add (cls [Known.anyType])).add (synonym (ref 0))).add
      (cls [ref 1])).add (synonym (ref 0))
    let t1 := ((TypeOperation.baseClasses (id 2)).run 9).after t
    let t2 := (t1.setInfo (id 3) (ref 2)).addDecl (id 2) (id 3)
    let t3 := ((cfg.run (.isSubtype (ref 3) (ref 0))).after (.fresh cfg.policy t2 0 #[])).table
    SymbolTable.initial.Standalone ∧ SymbolTable.initial.linearized = [] ∧
      Relation.ReflTransGen Step .initial t3 ∧ t3.Layered ∧ t3.linearization? (id 2) = some
      [id 2, id 0, Known.any] ∧ ∃ classes, (SymM.baseClasses (id 2)).answer? t3 = some classes ∧
        (SymM.baseClasses (id 2)).answer? t3.cleared = some classes := by
  intro cfg cls synonym id ref t t1 t2 t3
  have start : SymbolTable.initial.Standalone := Declared.initial.standalone
  have fresh : SymbolTable.initial.linearized = [] := by decide +kernel
  have declared : Relation.ReflTransGen Step .initial t :=
    .tail (.tail (.tail (.single (.add (by decide +kernel))) (.add (by decide +kernel)))
      (.add (by decide +kernel))) (.add (by decide +kernel))
  have entered : Scope.entered.In t.size (id 2) := by decide +kernel
  have asked : t.Step t1 := .ask (layered_of_descending (by decide +kernel)
    (by decide +kernel) (by decide +kernel)) (.table 9 (.baseClasses (id 2)) entered)
  have retargeted : t1.Step (t1.setInfo (id 3) (ref 2)) :=
    .setInfo (id 3) (by decide +kernel) (by decide +kernel)
  have member : (t1.setInfo (id 3) (ref 2)).Step t2 := .addDecl (id 2) (by decide +kernel)
  have compared : t2.Step t3 := .ask (layered_of_descending (by decide +kernel)
    (by decide +kernel) (by decide +kernel)) (.fresh cfg AnnotationChecker.typeConstraints_natural
    (fun _ _ => .get_bind fun _ _ _ _ => .pure fun _ _ => trivial)
      (.isSubtype (ref 3) (ref 0)) t2 0 #[] (by decide +kernel))
  have steps : Relation.ReflTransGen Step .initial t3 :=
    .tail (.tail (.tail (.tail declared asked) retargeted) member) compared
  have last : t3.Layered :=
    layered_of_descending (by decide +kernel) (by decide +kernel) (by decide +kernel)
  exact ⟨start, fresh, steps, last, by decide +kernel,
    base_classes_ignore_what_is_remembered start fresh steps last (id 2)⟩

/-- What is remembered of a class stays when an alias that it inherits through is given a new
right-hand side. -/
theorem remembered_base_classes_go_stale :
    let t := SymM.declareThroughAlias.after .initial
    let id (i : Nat) : SymbolId := ⟨Known.count + i⟩
    let t' := ((SymM.baseClasses (id 3)).after t).setInfo (id 2) (Known.scalaRef (id 1))
    t'.Layered ∧ (SymM.baseClasses (id 3)).answer? t' = some [id 3, id 0] ∧
      (SymM.baseClasses (id 3)).answer? t'.cleared = some [id 3, id 1] := by
  intro t id t'
  exact ⟨layered_of_descending (by decide +kernel)
    (by decide +kernel) (by decide +kernel), by decide +kernel, by decide +kernel⟩

end SymbolTable

end Conformance

import Conformance.Proofs.Offset.Cascade

/-! # Answers do not depend on what was asked before

Questions enter symbols and remember linearizations, so the table that a query finds depends on the
questions before it. Over declarations that name only what is declared, the table after any history
is the one before it, and after it what the history entered. A query there numbers the symbols it
enters from further up, and otherwise does what it would have done before the history: the two runs
move together over a gap as wide as the history is long. -/

namespace Conformance

variable {α : Type} {t : SymbolTable}

/-! ## Questions on the two sides of a gap -/

instance : Movable Operation where
  relabel f h
    | .freshVar origin constraint => .freshVar (Movable.relabel f h origin)
      (Movable.relabel f h constraint)
    | .isSubtype l r => .isSubtype (Movable.relabel f h l) (Movable.relabel f h r)
    | .isSubtypeDepth l r depth => .isSubtypeDepth (Movable.relabel f h l)
      (Movable.relabel f h r) depth
    | .isSameType l r => .isSameType (Movable.relabel f h l) (Movable.relabel f h r)
    | .isSameTypes ls rs => .isSameTypes (Movable.relabel f h ls) (Movable.relabel f h rs)
    | .isDifferentType l r => .isDifferentType (Movable.relabel f h l) (Movable.relabel f h r)
    | .solve tvars tparams variances upper depth =>
      .solve (Movable.relabel f h tvars) (Movable.relabel f h tparams) variances upper depth
    | .isWithinBounds pre owner tparams targs =>
      .isWithinBounds (Movable.relabel f h pre) (Movable.relabel f h owner)
        (Movable.relabel f h tparams) (Movable.relabel f h targs)
    | .specializesSym ty s depth => .specializesSym (Movable.relabel f h ty)
      (Movable.relabel f h s) depth
    | .lub types => .lub (Movable.relabel f h types)
    | .glb types => .glb (Movable.relabel f h types)
    | .instantiate ty => .instantiate (Movable.relabel f h ty)
    | .suspend v => .suspend (h v)
    | .resume v => .resume (h v)
    | .resetStats => .resetStats
  relabel_id op := by cases op <;> simp [Movable.relabel_id]
  relabel_relabel f f' h h' op := by cases op <;> simp [Movable.relabel_relabel]

namespace Offset

open CheckM

variable {g : Offset}

/-- The two runs end alike; what they answer is left open. -/
def Parallel {σ : Type} [Mirrored σ] {α β : Type} (g : Offset)
    (x : EStateM Failure σ α) (y : EStateM Failure σ β) : Prop :=
  g.Twins (fun _ _ => True) x y

theorem Moves.parallel {σ : Type} [Mirrored σ] [Movable α] {x y : EStateM Failure σ α}
    (h : g.Moves x y) : g.Parallel x y := Twins.imp h fun _ _ _ => trivial

theorem MovesFrom.parallel {σ : Type} [Mirrored σ] [Movable α] {n : Nat} {x y : EStateM Failure σ α}
    {Q : Nat → α → Prop} (h : g.MovesFrom n x y Q) : g.Parallel x y := h.moves.parallel

theorem operation_parallel {cfg : Config} {q : Queries} (hq : q.Carries g) (op : Operation) :
    g.Parallel (op.asking cfg q) ((g.names.move op).asking cfg q) := by
  have walk := g.rules_walk
  have ends : ∀ {α : Type} {_ : Movable α} {x y : CheckM α} {Q : Nat → α → Prop}, g.MovesFrom
    0 x y Q → g.Parallel x y :=
    fun h => h.parallel
  cases op with
  | freshVar origin constraint => exact ends (freshVar_moves origin constraint)
  | isSubtype l r => exact (hq.sub l r _).parallel
  | isSubtypeDepth l r depth => exact (hq.sub l r depth).parallel
  | isSameType l r => exact (hq.same l r).parallel
  | isSameTypes ls rs =>
    exact ends (sameAll_walks walk hq.walks (Scope.all_tys ls) (Scope.all_tys rs))
  | isDifferentType l r =>
    exact ends (different_walks walk (fun _ _ => speculated_moves hq _ _)
      (Scope.all_ty l) (Scope.all_ty r))
  | solve tvars tparams variances upper depth =>
    exact ends (solve_walks (F := fun _ => True) walk hq.walks (fun group k progress u _ _ _ =>
      solveOne_moves hq group depth k progress u) (fun _ _ => ⟨trivial, trivial⟩)
        (Scope.all_syms _) variances upper)
  | isWithinBounds pre owner tparams targs =>
    exact ends (withinBounds_walks walk hq.walks (Scope.all_ty pre)
      (Scope.all_sym owner) (Scope.all_syms tparams) (Scope.all_tys targs))
  | specializesSym ty s depth =>
    exact ends (specializes_walks walk hq.walks (Scope.all_ty ty) (Scope.all_sym s) depth)
  | lub types => exact ends (lubUpTo_walks walk hq.walks _ (Scope.all_tys types))
  | glb types => exact ends (glb_walks walk hq.walks (Scope.all_tys types))
  | instantiate ty => exact (instantiate_moves ty).parallel
  | suspend v => exact (setSuspended_moves v true).parallel
  | resume v => exact (setSuspended_moves v false).parallel
  | resetStats =>
    intro s s' (hs : g.States s s')
    exact .ok trivial ⟨hs.table, hs.vars, ⟨hs.guard.trackFrom,
      hs.guard.maxDepth, hs.guard.depth, hs.guard.pending⟩, hs.skolems⟩

theorem typeOperation_parallel (fuel : Nat) {op : TypeOperation} (hop : op.isQuestion = true) :
    g.Parallel (op.run fuel) ((g.names.move op).run fuel) :=
  op.run_walks (R := fun x y => g.Parallel x y) (tables_walk g g.base.size)
    (fun h => (h rfl).parallel) (op.within_all hop) (fun _ _ _ _ => trivial) fuel

theorem Parallel.after {β : Type} {x : CheckM α} {y : CheckM β} (h : g.Parallel x y)
    {s s' : CheckState} (hs : g.States s s') : g.States (x.after s) (y.after s') := by
  have run := h s s' hs
  unfold CheckM.after
  generalize x s = r, y s' = r' at run ⊢
  cases run with
  | ok _ states => exact states
  | error states => exact states

theorem Parallel.afterSym {β : Type} {x : SymM α} {y : SymM β} (h : g.Parallel x y)
    {t' : SymbolTable} (ht : g.Tables t t') : g.Tables (x.after t) (y.after t') := by
  have run := h t t' ht
  unfold SymM.after
  generalize x t = r, y t' = r' at run ⊢
  cases run with
  | ok _ states => exact states
  | error states => exact states

end Offset

/-! ## Declarations -/

namespace SymbolTable

/-- Tables that are declared step by step, each step naming what is declared by then. -/
inductive Declared : SymbolTable → Prop
  | initial : Declared .initial
  | add {t : SymbolTable} {r : SymbolRecord} (ht : t.Declared)
    (hr : Scope.entered.Fits (t.size + 1) r) : Declared (t.add r)
  | setInfo {t : SymbolTable} {info : Ty} (ht : t.Declared)
    (s : SymbolId) (hinfo : Scope.entered.In t.size info) : Declared (t.setInfo s info)
  | setTParams {t : SymbolTable} {ps : List SymbolId} (ht : t.Declared)
    (s : SymbolId) (hps : Scope.entered.In t.size ps) : Declared (t.setTParams s ps)
  | setFlags {t : SymbolTable} (ht : t.Declared) (s : SymbolId)
    (flags : Flags) : Declared (t.setFlags s flags)
  | setParents {t : SymbolTable} {parents : List Ty} (ht : t.Declared) (s : SymbolId)
    (hparents : Scope.entered.In t.size parents) : Declared (t.setParents s parents)
  | addDecl {t : SymbolTable} {member : SymbolId} (ht : t.Declared) (cls : SymbolId)
    (hmember : Scope.entered.In t.size member) : Declared (t.addDecl cls member)
  | setCompanion {t : SymbolTable} {companion : SymbolId} (ht : t.Declared) (s : SymbolId)
    (hcompanion : Scope.entered.In t.size companion) : Declared (t.update s ({ · with companion }))

namespace Standalone

variable {t : SymbolTable} (h : t.Standalone)
include h

theorem add {r : SymbolRecord} (hr : Scope.entered.Fits (t.size + 1) r) : (t.add r).Standalone := by
  have fits : Scope.entered.Fits (t.size + 1) { r with id := t.nextId } :=
    ⟨hr.owner, hr.tparams, hr.info, hr.parents, hr.decls, hr.companion⟩
  have known := h.known
  refine ⟨by rw [size_add]; omega, fun i hi => ?_, ?_, fun i hi =>
    (h.closed.add fits).records (.inl hi), fun p hp => ?_⟩
  · rw [size_add] at hi
    obtain hi | rfl := Nat.lt_succ_iff_lt_or_eq.1 hi
    · rw [get_add_of_lt hi]
      exact h.ids i hi
    · exact congrArg SymbolRecord.id (t.get_add_self r)
  · rw [SymbolTable.kind, get_add_of_lt (Nat.lt_of_lt_of_le (by decide) known)]
    exact h.absent
  · obtain ⟨entered, classes⟩ := h.linearized p hp
    rw [size_add]
    exact ⟨Nat.lt_succ_of_lt entered, classes.mono (Nat.le_succ _)⟩

theorem update (c : SymbolId) {f : SymbolRecord → SymbolRecord}
    (hf : ∀ r, Scope.entered.Fits t.size r → Scope.entered.Fits t.size (f r))
    (id : ∀ r, (f r).id = r.id) (kind : ∀ r, (f r).kind = r.kind) : (t.update c f).Standalone := by
  refine ⟨by rw [size_update]; exact h.known, fun i hi => ?_, ?_, fun i hi => ?_, fun p hp => ?_⟩
  · rw [size_update] at hi
    obtain same | changed := t.get_update c f ⟨i⟩
    · rw [same]
      exact h.ids i hi
    · rw [changed, id]
      exact h.ids i hi
  · have kept : (t.update c f).kind .none = t.kind .none := by
      obtain same | changed := t.get_update c f .none
      · rw [SymbolTable.kind, same, SymbolTable.kind]
      · rw [SymbolTable.kind, changed, kind, SymbolTable.kind]
    rw [kept]
    exact h.absent
  · exact (h.closed.update c hf).records (.inl hi)
  · rw [size_update]
    exact h.linearized p hp

theorem forget : ({ t with linearized := [] } : SymbolTable).Standalone :=
  ⟨h.known, h.ids, h.absent, h.records, fun _ hp => nomatch hp⟩

theorem setInfo {info : Ty} (s : SymbolId) (hinfo : Scope.entered.In t.size info) :
    (t.setInfo s info).Standalone :=
  h.update s (fun _ hr => ⟨hr.owner, hr.tparams, hinfo, hr.parents, hr.decls, hr.companion⟩)
    (fun _ => rfl) fun _ => rfl

theorem setTParams {ps : List SymbolId} (s : SymbolId)
    (hps : Scope.entered.In t.size ps) : (t.setTParams s ps).Standalone :=
  h.update s (fun _ hr => ⟨hr.owner, hps, hr.info, hr.parents, hr.decls, hr.companion⟩)
    (fun _ => rfl) fun _ => rfl

theorem setFlags (s : SymbolId) (flags : Flags) : (t.setFlags s flags).Standalone :=
  h.update s (fun _ hr => ⟨hr.owner, hr.tparams, hr.info, hr.parents, hr.decls, hr.companion⟩)
    (fun _ => rfl) fun _ => rfl

theorem setParents {parents : List Ty} (s : SymbolId) (hparents : Scope.entered.In t.size parents) :
    (t.setParents s parents).Standalone := by
  have updated : (t.update s ({ · with parents })).Standalone :=
    h.update s (fun _ hr => ⟨hr.owner, hr.tparams, hr.info, hparents, hr.decls, hr.companion⟩)
      (fun _ => rfl) fun _ => rfl
  exact updated.forget

theorem addDecl {member : SymbolId} (cls : SymbolId) (hmember : Scope.entered.In t.size member) :
    (t.addDecl cls member).Standalone := by
  unfold SymbolTable.addDecl
  split
  · refine h.update cls (fun r hr => ⟨hr.owner, hr.tparams, hr.info, hr.parents, ?_, hr.companion⟩)
      (fun _ => rfl) fun _ => rfl
    rw [Array.toList_push]
    exact List.forall_mem_append.2 ⟨hr.decls, List.forall_mem_singleton.2 hmember⟩
  · exact h

theorem setCompanion {companion : SymbolId} (s : SymbolId)
    (hcompanion : Scope.entered.In t.size companion) :
    (t.update s ({ · with companion })).Standalone :=
  h.update s (fun _ hr => ⟨hr.owner, hr.tparams, hr.info, hr.parents, hr.decls, fun _ =>
    hcompanion⟩) (fun _ => rfl) fun _ => rfl

end Standalone

theorem Declared.standalone (h : t.Declared) : t.Standalone := by
  induction h with
  | initial => decide +kernel
  | add _ hr ih => exact ih.add hr
  | setInfo _ s hinfo ih => exact ih.setInfo s hinfo
  | setTParams _ s hps ih => exact ih.setTParams s hps
  | setFlags _ s flags ih => exact ih.setFlags s flags
  | setParents _ s hparents ih => exact ih.setParents s hparents
  | addDecl _ cls hmember ih => exact ih.addDecl cls hmember
  | setCompanion _ s hcompanion ih => exact ih.setCompanion s hcompanion

/-- Classes that are declared after the classes they inherit from, and few enough, are layered. -/
theorem layered_of_descending (absent : (t.kind .none).isClass = false)
    (size : t.size ≤ Limits.linearizationDepth)
    (down : ∀ i < t.size, ∀ p ∈ (t.get ⟨i⟩).parents, (t.parentClass p).val < i) : t.Layered := by
  have declared : ∀ {c : SymbolId}, (t.get c).isClass = true → c.val < t.size := by
    intro c hc
    refine Nat.lt_of_not_le fun unknown => ?_
    rw [get_of_size_le unknown] at hc
    exact absurd hc (Bool.eq_false_iff.1 absent)
  have ranked : t.Ranked fun c => if c.val < t.size then c.val else 0 := by
    refine ⟨fun c => ?_, fun {c d} hcd => ?_⟩
    · split
      · omega
      · decide
    · obtain ⟨hc, mem, hd⟩ := hcd
      obtain ⟨p, hp, rfl⟩ := List.mem_map.1 mem
      rw [if_pos (declared hd), if_pos (declared hc)]
      exact down c.val (declared hc) p hp
  exact ranked.layered

end SymbolTable

/-! ## Histories -/

namespace SymbolTable

/-- One question, asked of a checker over the table or of the table itself. It may fail. -/
inductive Asked : SymbolTable → SymbolTable → Prop
  | checker (cfg : Config) (ha : cfg.annotations.Natural) (op : Operation) (s : CheckState) :
    Asked s.table ((cfg.run op).after s).table
  | table (fuel : Nat) (op : TypeOperation) (hop : op.isQuestion = true)
    (t : SymbolTable) : Asked t ((op.run fuel).after t)

theorem Asked.fresh (cfg : Config) (ha : cfg.annotations.Natural)
    (op : Operation) (t : SymbolTable) (queries : Nat) (events : Array QueryEvent) :
    t.Asked ((cfg.run op).after (.fresh cfg.policy t queries events)).table :=
  .checker cfg ha op (.fresh cfg.policy t queries events)

/-- Any number of questions. -/
def History : SymbolTable → SymbolTable → Prop := Relation.ReflTransGen Asked

variable {base t t' : SymbolTable} (hb : base.Standalone) (hl : base.Layered)
include hb hl

/-- What a question enters grows from the declarations: the question's run moves with itself over a
gap of no width. -/
theorem Grown.asked (ht : base.Grown t) (h : t.Asked t') : base.Grown t' := by
  let g : Offset := (⟨base, hb, hl, 0⟩ : Gap).offset
  cases h with
  | checker cfg ha op s =>
    have parallel : g.Parallel (op.asking cfg (cfg.queriesUpTo (Config.levelsLeft s))) _ :=
      Offset.operation_parallel (Offset.queriesUpTo_carries (ha _) _) op
    rw [g.move_of_trivial rfl rfl] at parallel
    have states := parallel.after (Offset.states_refl rfl rfl rfl ht)
    rw [cfg.after_run]
    exact states.table.near
  | table fuel op hop =>
    have parallel := Offset.typeOperation_parallel (g := g) fuel hop
    rw [g.move_of_trivial rfl rfl] at parallel
    exact (parallel.afterSym (Offset.tables_refl rfl rfl ht)).near

theorem Grown.history (ht : base.Grown t) (h : t.History t') : base.Grown t' := by
  induction h with
  | refl => exact ht
  | tail _ step ih => exact ih.asked hb hl step

end SymbolTable

namespace CheckM

/-- What a computation answers, or how it fails. -/
def outcome {α : Type} (x : CheckM α) (s : CheckState) : Except Failure α :=
  match x s with
  | .ok a _ => .ok a
  | .error e _ => .error e

end CheckM

theorem Offset.Moves.outcome {g : Offset} {x y : CheckM Bool}
    (h : g.Moves x y) {s s' : CheckState} (hs : g.States s s') : y.outcome s' = x.outcome s := by
  have run := h s s' hs
  unfold CheckM.outcome
  generalize x s = r, y s' = r' at run ⊢
  cases run with
  | ok answers states => exact congrArg Except.ok answers
  | error states => rfl

/-! ## A query after a history -/

/-- No handle in the type is unknown. An unknown handle would name what is entered under it in the
end. -/
def Ty.isRegistered : Ty → Bool := every fun
  | .dangling _ => false
  | _ => true

namespace SymbolTable

/-- The symbols and handles of the type are entered. -/
structure Expresses (t : SymbolTable) (ty : Ty) : Prop where
  entered : Scope.entered.In t.size ty
  registered : ty.isRegistered = true

/-- Declarations name symbols and handles that are entered. -/
structure Complete (t : SymbolTable) : Prop where
  standalone : t.Standalone
  registered : ∀ i < t.size, ∀ ty ∈ (t.get ⟨i⟩).info :: (t.get ⟨i⟩).parents, ty.isRegistered = true

end SymbolTable

/-- Over declarations that name only what is entered, a query about what is entered ends on a fresh
checker after any history as it would have ended on one before it. -/
theorem Config.answers_do_not_depend_on_history (cfg : Config) (ha : cfg.annotations.Natural)
    {t t' : SymbolTable} (ht : t.Complete) (layered : t.Layered) (history : t.History t')
    {l r : Ty} (hl : t.Expresses l) (hr : t.Expresses r) (queries queries' : Nat)
    (events events' : Array QueryEvent) :
    (cfg.isSubtype l r).outcome (.fresh cfg.policy t' queries' events') =
      (cfg.isSubtype l r).outcome (.fresh cfg.policy t queries events) ∧
    (cfg.isSameType l r).outcome (.fresh cfg.policy t' queries' events') =
      (cfg.isSameType l r).outcome (.fresh cfg.policy t queries events) := by
  have grown : t.Grown t' := ht.standalone.grown.history ht.standalone layered history
  -- the symbols that the history entered are the gap
  let g : Gap := ⟨t, ht.standalone, layered, t'.size - t.size⟩
  have size : t'.size = t.size + g.width := (Nat.add_sub_cancel' grown.appended.size_le).symm
  have vars : (#[] : Array (VarInfo Ty)) = #[] ++ (#[] : Array (VarInfo Ty)).map
    g.offset.names.move := by simp
  have states : g.offset.States (.fresh cfg.policy t queries events)
    (.fresh cfg.policy t' queries' events') :=
    ⟨Offset.tables_of_grown (g := g.offset) grown size, vars, ⟨rfl, rfl, rfl, rfl⟩, rfl, rfl⟩
  have sub := Offset.withQueries_moves (ha g) fun _ hq => hq.sub l r .unlimited
  have same := Offset.withQueries_moves (ha g) fun _ hq => hq.same l r
  rw [Gap.move_enteredTy hl.entered, Gap.move_enteredTy hr.entered] at sub same
  exact ⟨sub.outcome states, same.outcome states⟩

/-- Opening one existential and solving for another enters symbols, after a history under other
identifiers. -/
theorem Config.existentials_conform_after_history :
    let cfg : Config := ⟨{}, .typeConstraints, 9⟩
    let t := SymM.declarePairs.after .initial
    let pair (a : Ty) := Ty.ref (.this Known.scalaClass) ⟨Known.count⟩ [a, Known.anyType]
    let some (s : SymbolId) := Ty.exist [s] (pair (.ref .noPrefix s []))
    let q : SymbolId := ⟨Known.count + 3⟩
    let r : SymbolId := ⟨Known.count + 4⟩
    let t1 := ((cfg.run (.glb [Known.anyValType, Known.objectType])).after
      (.fresh cfg.policy t 0 #[])).table
    let t2 := ((TypeOperation.baseClasses Known.string).run 9).after t1
    t.Complete ∧ t.Layered ∧ t.History t2 ∧ t2.size = t.size + 1 ∧ t2.linearized ≠ t.linearized ∧
      t.Expresses (some q) ∧ t.Expresses (some r) ∧
      ((cfg.isSubtype (some q) (some r)).after (.fresh cfg.policy t 0 #[])).table.size ≠ t.size ∧
      (cfg.isSubtype (some q) (some r)).outcome (.fresh cfg.policy t 0 #[]) = .ok true ∧
      (cfg.isSubtype (some q) (some r)).outcome (.fresh cfg.policy t2 7 #[]) = .ok true := by
  intro cfg t pair some q r t1 t2
  have ht : t.Complete := ⟨by decide +kernel, by decide +kernel⟩
  have layered : t.Layered := SymbolTable.layered_of_descending (by decide +kernel)
    (by decide +kernel) (by decide +kernel)
  have first : t.Asked t1 := .fresh cfg AnnotationChecker.typeConstraints_natural
    (.glb [Known.anyValType, Known.objectType]) t 0 #[]
  have second : t1.Asked t2 := .table 9 (.baseClasses Known.string) rfl t1
  have history : t.History t2 := .tail (.single first) second
  have hq : t.Expresses (some q) := ⟨by decide +kernel, by decide +kernel⟩
  have hr : t.Expresses (some r) := ⟨by decide +kernel, by decide +kernel⟩
  have before : (cfg.isSubtype (some q) (some r)).outcome
    (.fresh cfg.policy t 0 #[]) = .ok true := by decide +kernel
  have same := cfg.answers_do_not_depend_on_history
    AnnotationChecker.typeConstraints_natural ht layered history hq hr 0 7 #[] #[]
  exact ⟨ht, layered, history, by decide +kernel, by decide +kernel,
    hq, hr, by decide +kernel, before, same.1.trans before⟩

/-- What names a symbol that is not declared starts to conform to `Any` once a bound of other types
is entered under the symbol's identifier: a type that names it, and a declared alias of such a
type. -/
theorem Config.undeclared_symbol_changes_answer :
    let cfg : Config := ⟨{}, .typeConstraints, 9⟩
    let bounded (t : SymbolTable) :=
      ((cfg.run (.glb [Known.anyValType, Known.objectType])).after
        (.fresh cfg.policy t 0 #[])).table
    let conforms (l : Ty) (t : SymbolTable) := (cfg.isSubtype l Known.anyType).outcome
      (.fresh cfg.policy t 0 #[])
    let t : SymbolTable := .initial
    let l : Ty := .ref .noPrefix ⟨Known.count⟩ []
    let aliased := SymM.after (do
      let s ← SymM.newAliasType Known.scalaClass "T"
      SymM.setInfo s (.ref .noPrefix ⟨Known.count + 1⟩ [])) t
    let another : Ty := .ref (.this Known.scalaClass) ⟨Known.count⟩ []
    (t.Standalone ∧ t.Layered ∧ t.History (bounded t) ∧
      conforms l t = .ok false ∧ conforms l (bounded t) = .ok true) ∧
      aliased.Layered ∧ Scope.entered.In aliased.size another ∧ aliased.History (bounded aliased) ∧
        conforms another aliased = .ok false ∧ conforms another (bounded aliased) = .ok true := by
  intro cfg bounded conforms t l aliased another
  have history : ∀ t : SymbolTable, t.History (bounded t) := fun t =>
    .single (.fresh cfg AnnotationChecker.typeConstraints_natural
      (.glb [Known.anyValType, Known.objectType]) t 0 #[])
  have ht : t.Standalone := SymbolTable.Declared.initial.standalone
  have layered : t.Layered :=
    SymbolTable.layered_of_descending (by decide +kernel) (by decide +kernel) (by decide +kernel)
  have layered' : aliased.Layered :=
    SymbolTable.layered_of_descending (by decide +kernel) (by decide +kernel) (by decide +kernel)
  exact ⟨⟨ht, layered, history t, by decide +kernel, by decide +kernel⟩,
    layered', by decide +kernel, history aliased, by decide +kernel, by decide +kernel⟩

end Conformance

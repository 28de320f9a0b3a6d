import Conformance.Proofs.Offset.Basic

/-! # Tables on the two sides of an offset

A table mirrors another one if it reads every moved symbol as the moved record. What is computed
from records then moves along, and what is entered on both sides is entered under identifiers that
correspond. -/

namespace Conformance

variable {c s : SymbolId} {r : SymbolRecord} {n : Nat}

open SymbolTable Relabeling

variable {t : SymbolTable}

/-- Two tables with the declarations of the base; what was entered since stands in the second one
further up. -/
structure Offset.Tables (g : Offset) (t t' : SymbolTable) : Prop extends g.names.Reads t t' where
  near : g.base.Grown t
  far : g.base.Grown t'
  size : t'.size = t.size + g.width

instance Offset.mirroredTables : Offset.Mirrored SymbolTable := ⟨Offset.Tables⟩

theorem SymbolTable.get_add_of_ne (ht : 0 < t.size)
    (hs : s ≠ t.nextId) (r : SymbolRecord) : (t.add r).get s = t.get s := by
  have hs : s.val ≠ t.size := fun same => hs (congrArg SymbolId.mk same)
  rw [get_eq_getD, get_eq_getD, getElem?_add, getElem?_add, if_neg hs, if_neg (Nat.ne_of_lt ht)]

theorem SymbolTable.get_update_of_pos (hc : 0 < c.val)
    (f : SymbolRecord → SymbolRecord) (s : SymbolId) :
    (t.update c f).get s = if s = c ∧ c.val < t.size then f (t.get s) else t.get s := by
  rw [get_eq_getD, get_eq_getD, getElem?_update, getElem?_update, if_neg (Nat.ne_of_gt hc)]
  by_cases hs : s = c
  · subst hs
    by_cases entered : s.val < t.size
    · have there : t.records[s.val]? = some t.records[s.val] := Array.getElem?_eq_getElem entered
      simp [entered, there]
    · have missing : t.records[s.val]? = none := Array.getElem?_eq_none (Nat.le_of_not_lt entered)
      simp [entered, missing]
  · have other : ¬ c.val = s.val := fun same => hs (congrArg SymbolId.mk same.symm)
    rw [if_neg other, if_neg fun both => hs both.1]

namespace Offset

variable {g : Offset}

/-- A declared record names what is declared, so it stays. -/
theorem move_declared (hs : s.val < g.base.size) : g.names.move (g.base.get s) = g.base.get s := by
  have fits := g.standalone.records s.val hs
  have fixed := fixes_declared (g := g) s
  have declared : (g.base.get s).id = s := g.standalone.ids s.val hs
  generalize g.base.get s = r at fits fixed declared
  obtain ⟨fixed, -⟩ := List.forall_mem_append.1 fixed
  obtain ⟨fixed, ofParents⟩ := List.forall_mem_append.1 fixed
  obtain ⟨-, ofInfo⟩ := List.forall_mem_append.1 fixed
  have decls : r.decls.map g.names.sym = r.decls := by
    apply Array.toList_inj.1
    rw [Array.toList_map]
    exact move_enteredSyms fits.decls
  have id : g.names.sym r.id = r.id := move_of_lt (declared ▸ hs)
  have owner : g.names.sym r.owner = r.owner := move_entered fits.owner
  have tparams : r.tparams.map g.names.sym = r.tparams := move_enteredSyms fits.tparams
  have info : r.info.relabel g.names.sym g.names.var = r.info := move_enteredTy fits.info ofInfo
  have parents : Movable.relabel g.names.sym g.names.var r.parents = r.parents :=
    move_enteredTys fits.parents ofParents
  have companion : g.names.sym r.companion = r.companion := move_entered (fits.companion trivial)
  cases r
  simp only [move, Movable.relabel] at id owner tparams info parents companion decls ⊢
  rw [id, owner, tparams, info, parents, decls, companion]

/-- What is entered has the parents of a declared class or none, so they stay. -/
theorem move_parents (ht : g.base.Grown t) (s : SymbolId) :
    g.names.move (t.get s).parents = (t.get s).parents := by
  refine move_enteredTys (ht.parents_entered g.standalone s) fun m hm => ?_
  obtain none | ⟨c, same, -⟩ := ht.kin s
  · rw [none] at hm
    cases hm
  · rw [same] at hm
    exact fixes_declared c m (List.mem_append_left _ (List.mem_append_right _ hm))

theorem linearization?_move (s : SymbolId) : g.base.linearization?
    (g.names.move s) = g.names.move (g.base.linearization? s) := by
  by_cases hs : s.val < g.base.size
  · rw [move_of_lt hs]
    cases found : g.base.linearization? s with
    | none => rfl
    | some classes =>
      rw [move_some, move_enteredSyms (g.standalone.linearized _ (mem_of_lookup found)).2]
  · have missing : ∀ c : SymbolId, g.base.size ≤ c.val → g.base.linearization? c = none := by
      intro c hc
      cases found : g.base.linearization? c with
      | none => rfl
      | some classes =>
        have declared : c.val < g.base.size := (g.standalone.linearized _ (mem_of_lookup found)).1
        omega
    have beyond : g.base.size ≤ s.val := Nat.le_of_not_lt hs
    rw [missing s beyond,
      missing _ (by rw [move_of_le beyond]; exact Nat.le_add_right_of_le beyond), move_none]

theorem headed_move (s : SymbolId) (tail : List SymbolId) :
    headed (g.names.move s) (g.names.move tail) = g.names.move (headed s tail) := by
  rw [headed, headed, move_cons, contains_move]
  split
  · rw [move_filter fun c => move_bne c s]
  · rfl

theorem lineage_move (s : SymbolId) (hr : Scope.entered.In g.base.size r.parents)
    (kept : g.names.move r.parents = r.parents) :
    g.base.lineage (g.names.move s) (g.names.move r) = g.names.move (g.base.lineage s r) := by
  have below : Scope.entered.In g.base.size (mixed (g.base.lineageUpTo Limits.linearizationDepth)
      (r.parents.map g.base.parentClass)) := by
    refine mixed_in fun p hp => ?_
    obtain ⟨ty, hty, rfl⟩ := List.mem_map.1 hp
    exact g.standalone.lineageUpTo_entered _ (g.standalone.closed.at.parentClass (hr ty hty))
  rw [lineage, lineage, linearization?_move, parents_move, kept, isClass_move]
  cases g.base.linearization? s with
  | some classes => rfl
  | none =>
    simp only [move_none, Option.getD_none]
    split
    · rw [← headed_move, move_enteredSyms below]
    · rfl

theorem absent_lt (g : Offset) : SymbolId.none.val < g.base.size :=
    Nat.lt_of_lt_of_le (by decide) g.standalone.known

/-- Tables that grew from the base by as many symbols as the gap is wide. -/
theorem tables_of_grown (ht : g.base.Grown t) (size : t.size = g.base.size + g.width) :
    g.Tables g.base t := by
  refine ⟨⟨fun s => ?_⟩, g.standalone.grown, ht, size⟩
  -- a declared symbol is read on both sides; any other is beyond both tables and reads as the
  -- absent one
  by_cases hs : s.val < g.base.size
  · rw [move_of_lt hs, move_declared hs, ht.get_eq hs]
  · have beyond : g.base.size ≤ s.val := Nat.le_of_not_lt hs
    have beyond' : t.size ≤ (g.names.move s).val := by
      rw [move_of_le beyond, size]
      exact Nat.add_le_add_right beyond _
    rw [get_of_size_le beyond, get_of_size_le beyond',
      ht.get_eq g.absent_lt, move_declared g.absent_lt]

theorem tables_refl (width : g.width = 0) (none : g.prior.size = 0)
    (ht : g.base.Grown t) : g.Tables t t := by
  refine ⟨⟨fun s => ?_⟩, ht, ht, by rw [width, Nat.add_zero]⟩
  rw [move_of_trivial g width none, move_of_trivial g width none]

namespace Tables

variable {t t' : SymbolTable} (h : g.Tables t t')
include h

theorem base_le : g.base.size ≤ t.size := h.near.appended.size_le

theorem move_nextId : g.names.move t.nextId = t'.nextId := by
  rw [move_of_le (by exact h.base_le)]
  exact congrArg SymbolId.mk h.size.symm

theorem add (hr : r.parents = [] ∨
    ∃ c, r.parents = (g.base.get c).parents ∧ (r.isClass = true → (g.base.get c).isClass = true)) :
    g.Tables (t.add r) (t'.add (g.names.move r)) := by
  have hr' : (g.names.move r).parents = [] ∨ ∃ c, (g.names.move r).parents = (g.base.get
      c).parents ∧ ((g.names.move r).isClass = true → (g.base.get c).isClass = true) := by
    rw [parents_move]
    refine hr.imp (fun none => by rw [none, move_nil]) fun ⟨c, same, isClass⟩ => ⟨c, ?_, isClass⟩
    rw [same]
    exact move_parents g.standalone.grown c
  refine ⟨⟨fun s => ?_⟩, h.near.add hr, h.far.add hr', by rw [size_add, size_add, h.size]; omega⟩
  have first := g.absent_lt
  have near : g.base.size ≤ t.size := h.base_le
  have far : t.size ≤ t'.size := by rw [h.size]; exact Nat.le_add_right _ _
  by_cases hs : s = t.nextId
  · subst hs
    rw [h.move_nextId, get_add_self, get_add_self, ← h.move_nextId]
    rfl
  · have hs' : g.names.move s ≠ t'.nextId := fun same =>
      hs (move_inj.1 (same.trans h.move_nextId.symm))
    rw [get_add_of_ne (by omega) hs, get_add_of_ne (by omega) hs', h.get]

theorem update (hc : g.base.size ≤ c.val) {f f' : SymbolRecord → SymbolRecord}
    (hf : ∀ r, (f r).id = r.id ∧ (f r).parents = r.parents ∧ (f r).kind = r.kind)
    (hf' : ∀ r, (f' r).id = r.id ∧ (f' r).parents = r.parents ∧ (f' r).kind = r.kind)
    (moves : ∀ r, f' (g.names.move r) = g.names.move (f r)) :
    g.Tables (t.update c f) (t'.update (g.names.move c) f') := by
  have hc' : (g.names.move c).val = c.val + g.width := by rw [move_of_le hc]
  have first : 0 < g.base.size := g.absent_lt
  refine ⟨⟨fun s => ?_⟩, h.near.update hc hf, h.far.update
    (by omega) hf', by rw [size_update, size_update, h.size]⟩
  rw [get_update_of_pos (by omega), get_update_of_pos (by omega), h.get]
  have entered : (g.names.move c).val < t'.size ↔ c.val < t.size := by rw [hc', h.size]; omega
  simp only [move_inj, entered]
  split
  · exact moves _
  · rfl

end Tables

/-! ## Operations on tables -/

theorem move_entry (id : SymbolId) (name : String)
    (owner : SymbolId) (kind : SymbolKind) (flags : Flags) (info : Ty)
    (level : Nat) : g.names.move ({ id, name, owner, kind, flags, info, level } : SymbolRecord) =
      { id := g.names.move id, name, owner := g.names.move owner, kind, flags
        info := g.names.move info, level } := by
  have companion : g.names.sym SymbolId.none = .none := move_absent
  simp [move, Movable.relabel, companion]

theorem enter_moves (name : String) (owner : SymbolId)
    (kind : SymbolKind) (flags : Flags) : g.MovesFrom n (SymM.enter name owner kind flags)
    (SymM.enter name (g.names.move owner) kind flags)
      (Scope.all.Fresh g.base.size) := by
  intro t t' (h : g.Tables t t')
  have added := h.add (r := { id := t.nextId, name, owner, kind, flags }) (.inl rfl)
  rw [move_entry, h.move_nextId, move_noType] at added
  exact .ok ⟨h.move_nextId.symm, n, Nat.le_refl _, h.base_le, Scope.all_sym _⟩ added

theorem newTypeLike_moves (template owner : SymbolId) (extra : Flags) (level : Nat) :
    g.MovesFrom n (SymM.newTypeLike template owner extra level)
      (SymM.newTypeLike (g.names.move template) (g.names.move owner) extra level)
        (Scope.all.Fresh g.base.size) := by
  intro t t' (h : g.Tables t t')
  have added := h.add (r :=
    { id := t.nextId, name := (t.get template).name, owner
      kind := if !(t.get template).isType || (t.get template).isClass then
      .abstractType else (t.get template).kind
      flags := (t.get template).flags.union extra, info := (t.get template).info, level })
      (.inl rfl)
  rw [move_entry, h.move_nextId] at added
  refine .ok ⟨h.move_nextId.symm, n, Nat.le_refl _, h.base_le, Scope.all_sym _⟩ ?_
  rw [h.get]
  exact added

/-- A copy has the parents of what it is a copy of. -/
theorem cloneSymbol_moves (s : SymbolId) : g.MovesFrom n (SymM.cloneSymbol s)
    (SymM.cloneSymbol (g.names.move s)) (Scope.all.Fresh g.base.size) := by
  intro t t' (h : g.Tables t t')
  have added := h.add (h.near.kin s)
  rw [← h.get] at added
  exact .ok ⟨h.move_nextId.symm, n, Nat.le_refl _, h.base_le, Scope.all_sym _⟩ added

theorem setInfo_moves (hc : g.base.size ≤ c.val) (info : Ty) :
    g.Moves (SymM.setInfo c info) (SymM.setInfo (g.names.move c) (g.names.move info)) :=
  fun _ _ (h : g.Tables _ _) =>
    .ok rfl (h.update hc (fun _ => ⟨rfl, rfl, rfl⟩) (fun _ => ⟨rfl, rfl, rfl⟩) fun _ => rfl)

theorem setOwner_moves (hc : g.base.size ≤ c.val) (owner : SymbolId) :
    g.Moves (modify (·.update c ({ · with owner := owner })) : SymM Unit)
      (modify (·.update (g.names.move c) ({ · with owner := g.names.move owner }))) :=
  fun _ _ (h : g.Tables _ _) =>
    .ok rfl (h.update hc (fun _ => ⟨rfl, rfl, rfl⟩) (fun _ => ⟨rfl, rfl, rfl⟩) fun _ => rfl)

/-! ## Linearizations -/

theorem baseClasses_moves (s : SymbolId) : g.Moves (SymM.baseClasses s)
    (SymM.baseClasses (g.names.move s)) := by
  intro t t' (h : g.Tables t t')
  -- what either table remembers, its run gives the lineage that the base declares
  have near := SymM.baseClasses_recalls g.standalone g.layered h.near s
  have far := SymM.baseClasses_recalls g.standalone g.layered h.far (g.names.move s)
  obtain ⟨t1, run, records, grown⟩ := near t rfl h.near
  obtain ⟨t1', run', records', grown'⟩ := far t' rfl h.far
  rw [h.get, lineage_move s (h.near.parents_entered g.standalone s) (move_parents h.near s)] at run'
  rw [run, run']
  have read : ∀ {t1 t2 : SymbolTable}, t2.records = t1.records → t2.get = t1.get := fun same => by
    funext c
    rw [SymbolTable.get, same, ← SymbolTable.get]
  refine .ok rfl ⟨⟨fun c => ?_⟩, grown, grown', ?_⟩
  · rw [read records, read records', h.get]
  · rw [SymbolTable.size, SymbolTable.size, records, records']
    exact h.size

/-! ## Operations on types -/

theorem renamedSymbol?_moves (src dst : List SymbolId)
    (s : SymbolId) : g.Moves (renamedSymbol? src dst s)
    (renamedSymbol? (g.names.move src) (g.names.move dst) (g.names.move s)) := by
  unfold renamedSymbol?
  rw [idxOf?_move]
  cases src.idxOf? s with
  | none => exact .pure rfl
  | some i =>
    simp only [getElem?_move]
    cases found : dst[i]? with
    | none =>
      simp only [move_none, length_move]
      exact .fail _
    | some s' => exact .pure rfl

/-- Operations on types move along. What they enter is not declared, so it may be written. -/
theorem tables_walk (g : Offset) (b : Nat) : TableWalk
    .all g.names b (fun _ _ => True) fun n x y Q => b = g.base.size → g.MovesFrom n x y Q where
  pure same hQ _ := .pure same hQ
  bind hx hf hb := (hx hb).bind fun a k hk ha => hf a k hk ha hb
  get_bind h hb := Twins.get_bind fun t t' ht =>
    h t t' (Scope.all_closedAt _ t) (Tables.toReads ht) (Nat.le_refl _) hb
  exhausted _ _ _ hs := .error hs
  enter _ name kind flags hb := hb ▸ enter_moves name _ kind flags
  cloneSymbol _ hb := hb ▸ cloneSymbol_moves _
  newTypeLike _ _ extra level hb := hb ▸ newTypeLike_moves _ _ extra level
  setInfo hs _ hb := (setInfo_moves (hb ▸ hs.1) _).of fun _ => trivial
  cloneInto {_ _ owner} _ _ hb := by
    subst hb
    refine MovesFrom.bind (cloneSymbol_moves _) fun c _ _ hc => ?_
    refine MovesFrom.bind (R := fun _ _ => True) ((setOwner_moves hc.1 owner).of fun _ => trivial)
      fun _ _ hk _ => ?_
    exact .pure rfl fun _ hk' => Scope.stable_fresh _ _ _ _ _ (Nat.le_trans hk hk') hc
  baseClasses _ _ := (baseClasses_moves _).of fun _ => Scope.all_syms _
  fit _ := trivial
  renamedSymbol? s _ _ _ := (renamedSymbol?_moves _ _ s).of fun _ _ _ => Scope.all_sym _

end Offset

end Conformance

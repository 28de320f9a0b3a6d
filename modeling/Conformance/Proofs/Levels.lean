import Conformance.Proofs.Declarations

/-! # Skolems and the levels of variables

A skolem is made at the level of the query that opens its existential type, and a variable lets in
what names no skolem of a deeper level. What a type names does not change as the table grows, so
what was let in stays good. Only a solver writes constraints without asking: the solution of a
variable is built from its bounds, and these may name variables of deeper levels. So the variables
that are kept out of solvers hold no deeper skolem, neither themselves nor through one another. -/

namespace Conformance

variable {n : Nat} {s : SymbolId} {ty : Ty} {f : VarInfo Ty → VarInfo Ty}
  {v : VarId} {info : VarInfo Ty}

/-! ## Types over the symbols entered so far -/

/-- The symbols entered so far, and every variable. -/
def Scope.entered : Scope where
  has n s := s.val < n ∨ s.val < Known.count
  var _ := True
  known h := .inr h
  mono hnm h := h.imp_left fun h => Nat.lt_of_lt_of_le h hnm
  fresh {n} _ := .inl (Nat.lt_succ_self n)
  old {n s} h := by
    obtain h | h := h
    · obtain h | h := Nat.lt_succ_iff_lt_or_eq.1 h
      · exact .inl (.inl h)
      · exact .inr (congrArg SymbolId.mk h)
    · exact .inl (.inr h)

theorem Scope.lt_of_entered (known : Known.count ≤ n) (hs : Scope.entered.In n s) : s.val < n :=
  hs.elim id fun hs => Nat.lt_of_lt_of_le hs known

namespace SymbolTable

/-- Wherever `ty` leads, no skolem is deeper than `level`. -/
def Below (t : SymbolTable) (inst? : VarId → Option Ty) (level : Nat) (ty : Ty) : Prop :=
  ∀ (pre : Ty) (s : SymbolId) (args : List Ty), t.Leads inst? ty (.ref pre s args) →
    (t.flags s).has .skolem = true → (t.get s).level ≤ level

/-- No skolem deeper than `level` is named; variables are not followed. -/
abbrev Shallow (t : SymbolTable) (level : Nat) (ty : Ty) : Prop := t.Below (fun _ => none) level ty

variable {t t' : SymbolTable} {level : Nat} {ty c : Ty}

theorem isRelatable_iff : t.isRelatable level ty = true ↔ t.Shallow level ty := by
  rw [isRelatable, Bool.not_eq_true', existsType_eq_false]
  constructor
  · intro h pre s args reached skolem
    have := h _ reached
    simpa [skolem] using this
  · intro h c reached
    cases c with
    | ref pre s args =>
      have := h pre s args reached
      simpa using this
    | _ => rfl

theorem shallow_scalaRef (h : (t.flags s).has .skolem = false)
    (level : Nat) : t.Shallow level (Known.scalaRef s) := by
  intro pre s' args reached skolem
  cases reached with
  | refl =>
    rw [h] at skolem
    cases skolem
  | child hc hleads =>
    obtain rfl := List.mem_singleton.1 hc
    cases hleads with
    | child hc _ => cases hc

/-- What stands for variables may be followed, if it is shallow itself. -/
theorem Below.of_shallow {inst? : VarId → Option Ty} (h : t.Shallow level ty)
    (hinst : ∀ v ty', inst? v = some ty' → t.Shallow level ty') : t.Below inst? level ty := by
  intro pre s args leads
  generalize hc : Ty.ref pre s args = c at leads
  induction leads with
  | refl =>
    subst hc
    exact h _ _ _ (.refl _)
  | child mem _ ih => exact ih (fun pre s args leads => h _ _ _ (.child mem leads)) hc
  | inst hv _ ih => exact ih (hinst _ _ hv) hc

/-! ## Growth of the table -/

section Growth

variable (known : Known.count ≤ t.size) (ht : Scope.entered.Closed t) (grown : t.Extends t.size t')
include known grown

theorem get_of_entered (hs : Scope.entered.In t.size s) : t'.get s = t.get s :=
  grown.get_eq (hs.elim id fun hs => Nat.lt_of_lt_of_le hs known)

theorem infos_of_entered {syms : List SymbolId} (hsyms : Scope.entered.In t.size syms) :
    t'.infos syms = t.infos syms := by
  unfold infos
  congr 1
  refine List.map_congr_left fun s hs => ?_
  exact congrArg SymbolRecord.info (get_of_entered known grown (hsyms s hs))

theorem children_of_entered (hty : Scope.entered.In t.size ty) :
    t'.children ty = t.children ty := by
  have same : ∀ {syms : List SymbolId}, Scope.entered.In t.size syms →
    t'.infos syms = t.infos syms :=
    infos_of_entered known grown
  cases hty with
  | refined _ hdecls _ => exact congrArg (_ ++ ·) (same hdecls)
  | exist hq _ => exact congrArg (· ++ _) (same hq)
  | method hp _ => exact congrArg (· ++ _) (same hp)
  | poly hp _ => exact congrArg (· ++ _) (same hp)
  | _ => rfl

include ht

theorem Reaches.of_extends (h : t'.Reaches ty c) (hty : Scope.entered.In t.size ty) :
    t.Reaches ty c ∧ Scope.entered.In t.size c := by
  induction h with
  | refl => exact ⟨.refl _, hty⟩
  | child mem _ ih =>
    rw [children_of_entered known grown hty] at mem
    obtain ⟨reached, hc⟩ := ih (ht.at.children hty _ mem)
    exact ⟨.child mem reached, hc⟩
  | inst h => cases h

theorem Below.of_extends (h : t.Shallow level ty) (hty : Scope.entered.In t.size ty) :
    t'.Shallow level ty := by
  intro pre s args reached skolem
  obtain ⟨before, href⟩ := Reaches.of_extends known ht grown reached hty
  have same := get_of_entered known grown href.ref_sym
  rw [flags, same] at skolem
  rw [same]
  exact h _ _ _ before skolem

end Growth

end SymbolTable

/-! ## The invariant of the variables kept out of solvers -/

/-- The bounds of a variable and what stands for it. -/
def Constraint.types (c : Constraint Ty) : List Ty := c.lo ++ c.hi ++ c.inst.toList

theorem Constraint.in_iff {sc : Scope} {c : Constraint Ty} : sc.In n c ↔ sc.In n c.types := by
  constructor
  · rintro ⟨hlo, hhi, hinst⟩
    exact (hlo.append hhi).append fun ty hty => hinst ty (Option.mem_toList.1 hty)
  · intro h
    refine ⟨h.subset fun _ hty => ?_, h.subset fun _ hty => ?_, fun ty hty => h ty ?_⟩
    · exact List.mem_append_left _ (List.mem_append_left _ hty)
    · exact List.mem_append_left _ (List.mem_append_right _ hty)
    · exact List.mem_append_right _ (Option.mem_toList.2 hty)

/-- The change enters `ty` into a constraint. -/
inductive EntersType (ty : Ty) : (VarInfo Ty → VarInfo Ty) → Prop
  | bound (side : Side) : EntersType ty (VarInfo.addBound side ty)
  | inst : EntersType ty fun info => { info with constraint := info.constraint.setInst ty }

theorem EntersType.level (h : EntersType ty f) (info : VarInfo Ty) :
    (f info).level = info.level := by
  cases h with
  | bound side => cases side <;> rfl
  | inst => rfl

namespace EntersType

variable {ty : Ty} {f : VarInfo Ty → VarInfo Ty} (h : EntersType ty f) (info : VarInfo Ty)
include h

theorem origin : (f info).origin = info.origin := by
  cases h with
  | bound side => cases side <;> rfl
  | inst => rfl

theorem mem_types {ty' : Ty} (hty' : ty' ∈ (f info).constraint.types) :
    ty' ∈ info.constraint.types ∨ ty' = ty := by
  cases h with
  | bound side =>
    cases side with
    | lower =>
      simp only [VarInfo.addBound, Constraint.addLo] at hty'
      split at hty'
      · exact .inl hty'
      · simp only [Constraint.types, List.mem_append, List.mem_singleton] at hty' ⊢
        tauto
    | upper =>
      simp only [VarInfo.addBound, Constraint.addHi] at hty'
      split at hty'
      · exact .inl hty'
      · simp only [Constraint.types, List.mem_append, List.mem_singleton] at hty' ⊢
        tauto
  | inst =>
    simp only [Constraint.types, Constraint.setInst,
      List.mem_append, Option.toList_some, List.mem_singleton] at hty' ⊢
    tauto

theorem in_scope {sc : Scope} (hinfo : sc.In n info) (hty : sc.In n ty) : sc.In n (f info) := by
  refine ⟨h.origin info ▸ hinfo.1, Constraint.in_iff.2 fun ty' hty' => ?_⟩
  obtain hty' | rfl := h.mem_types info hty'
  · exact Constraint.in_iff.1 hinfo.2 ty' hty'
  · exact hty

end EntersType

/-- The variables of `P` are at the outermost level and hold no deeper skolem. -/
structure Levelled (P : VarId → Prop) (t : SymbolTable) (vars : Array (VarInfo Ty)) : Prop where
  known : Known.count ≤ t.size
  plain {s : SymbolId} : s.val < Known.count → (t.flags s).has .skolem = false
  entered {i : Nat} {info : VarInfo Ty} : vars[i]? = some info → Scope.entered.In t.size info
  shallow {v : VarId} : P v → ∃ info, vars[v.val]? = some info ∧ info.level = 0 ∧
    ∀ ty ∈ info.constraint.types, t.Shallow 0 ty

namespace Levelled

variable {P P' : VarId → Prop} {t t' : SymbolTable} {vars : Array (VarInfo Ty)}

theorem imp (h : Levelled P t vars) (hP : ∀ v, P' v → P v) : Levelled P' t vars :=
  ⟨h.known, h.plain, h.entered, fun hv => h.shallow (hP _ hv)⟩

theorem grow (h : Levelled P t vars) (ht : Scope.entered.Closed t)
    (grown : t.Extends t.size t') : Levelled P t' vars where
  known := Nat.le_trans h.known grown.size_le
  plain {s} hs := by
    rw [SymbolTable.flags, grown.get_eq (Nat.lt_of_lt_of_le hs h.known)]
    exact h.plain hs
  entered hi := (h.entered hi).mono grown.size_le
  shallow hv := by
    obtain ⟨info, hi, level, shallow⟩ := h.shallow hv
    refine ⟨info, hi, level, fun ty hty => ?_⟩
    exact (shallow ty hty).of_extends h.known ht grown (Constraint.in_iff.1 (h.entered hi).2 ty hty)

theorem set (h : Levelled P t vars) {info' : VarInfo Ty} (hi : vars[v.val]? = some info)
    (hentered : Scope.entered.In t.size info') (hlevel : info'.level = info.level)
    (hshallow : P v → ∀ ty ∈ info'.constraint.types, t.Shallow 0 ty) :
    Levelled P t (vars.setIfInBounds v.val info') where
  known := h.known
  plain := h.plain
  entered {i info1} hi1 := by
    rw [Array.getElem?_setIfInBounds] at hi1
    split at hi1
    · split at hi1
      · exact Option.some.inj hi1 ▸ hentered
      · cases hi1
    · exact h.entered hi1
  shallow {u} hu := by
    obtain ⟨info1, hi1, level, shallow⟩ := h.shallow hu
    rw [Array.getElem?_setIfInBounds]
    by_cases huv : v.val = u.val
    · obtain rfl : v = u := congrArg VarId.mk huv
      obtain rfl : info = info1 := Option.some.inj (hi.symm.trans hi1)
      have bound : v.val < vars.size := (Array.getElem?_eq_some_iff.1 hi).1
      exact ⟨info', by rw [if_pos rfl, if_pos bound], hlevel.trans level, hshallow hu⟩
    · exact ⟨info1, by rw [if_neg huv, hi1], level, shallow⟩

/-- A new variable may join those of `P` if it starts as they are. -/
theorem push (h : Levelled P t vars) (hentered : Scope.entered.In t.size info)
    (hshallow : P' ⟨vars.size⟩ → info.level = 0 ∧ ∀ ty ∈ info.constraint.types, t.Shallow 0 ty)
    (hP : ∀ v, P' v → P v ∨ v = ⟨vars.size⟩) : Levelled P' t (vars.push info) where
  known := h.known
  plain := h.plain
  entered {i info1} hi := by
    rw [Array.getElem?_push] at hi
    split at hi
    · exact Option.some.inj hi ▸ hentered
    · exact h.entered hi
  shallow {u} hu := by
    obtain old | rfl := hP u hu
    · obtain ⟨info1, hi, rest⟩ := h.shallow old
      have bound : u.val < vars.size := (Array.getElem?_eq_some_iff.1 hi).1
      exact ⟨info1, by rw [Array.getElem?_push, if_neg (Nat.ne_of_lt bound), hi], rest⟩
    · exact ⟨info, by rw [Array.getElem?_push, if_pos rfl], hshallow hu⟩

theorem not_next (h : Levelled P t vars) : ¬ P ⟨vars.size⟩ := by
  intro hv
  obtain ⟨info, hi, -⟩ := h.shallow hv
  exact absurd (Array.getElem?_eq_some_iff.1 hi).1 (Nat.lt_irrefl _)

/-- What a variable at the outermost level lets in is shallow, also in the tables to come. -/
theorem shallow_of_admissible (h : Levelled P t vars)
    (hty : Admissible .entered (Levelled P) t 0 ty) : t.Shallow 0 ty := by
  obtain rfl | rfl | ⟨t0, vars0, ht0, h0, hty, grown, relatable⟩ := hty
  · exact SymbolTable.shallow_scalaRef (h.plain (by decide)) 0
  · exact SymbolTable.shallow_scalaRef (h.plain (by decide)) 0
  · exact (SymbolTable.isRelatable_iff.1 relatable).of_extends h0.known ht0 grown hty

theorem write (h : Levelled P t vars) (hi : vars[v.val]? = some info)
    (hty : Scope.entered.In t.size ty) (hf : EntersType ty f)
    (hfree : ¬ P v ∨ Admissible .entered (Levelled P) t info.level ty) :
    Levelled P t (vars.setIfInBounds v.val (f info)) := by
  refine h.set hi (hf.in_scope info (h.entered hi) hty) (hf.level info) fun hv ty' hty' => ?_
  obtain ⟨info1, hi1, level, shallow⟩ := h.shallow hv
  obtain rfl : info = info1 := Option.some.inj (hi.symm.trans hi1)
  obtain hty' | rfl := hf.mem_types info hty'
  · exact shallow ty' hty'
  · refine h.shallow_of_admissible ?_
    rw [← level]
    exact hfree.resolve_left fun free => free hv

end Levelled

theorem instantiating_levelled (P : VarId → Prop) :
    Instantiating .entered (fun v => ¬ P v) (Levelled P) where
  grow ht h grown _ _ := h.grow ht grown
  info h _ hi := h.entered hi
  bound side _ h _ hi hty hfree := h.write hi hty (.bound side) hfree
  inst _ h _ hi hty hfree := h.write hi hty .inst hfree
  fresh _ _ h horigin :=
    ⟨h.push ⟨horigin, .nil, .nil, .none⟩ (fun hv => absurd hv h.not_next) fun _ =>
      .inl, trivial, h.not_next⟩

/-! ## Sessions -/

/-- The known symbols are there and are no skolems, and records name symbols that are there. -/
structure SymbolTable.WellFormed (t : SymbolTable) : Prop where
  known : Known.count ≤ t.size
  plain : ∀ i < Known.count, (t.flags ⟨i⟩).has .skolem = false
  records : ∀ i < t.size, Scope.entered.Fits t.size (t.get ⟨i⟩)
  linearized : ∀ p ∈ t.linearized, Scope.entered.In t.size p.2

theorem SymbolTable.WellFormed.closed {t : SymbolTable}
    (h : t.WellFormed) : Scope.entered.Closed t :=
  ⟨Nat.zero_le _, fun {s} hs => h.records
    s.val (hs.elim id fun hs => Nat.lt_of_lt_of_le hs h.known), fun mem _ => h.linearized _ mem⟩

namespace Operation

/-- The operation is about symbols that a table of size `n` has. -/
def Names (n : Nat) : Operation → Prop
  | .freshVar origin constraint => Scope.entered.In n origin ∧ Scope.entered.In n constraint
  | .isSubtype l r | .isSubtypeDepth l r _ | .isSameType l r | .isDifferentType l r =>
    Scope.entered.In n l ∧ Scope.entered.In n r
  | .isSameTypes ls rs => Scope.entered.In n ls ∧ Scope.entered.In n rs
  | .solve _ tparams _ _ _ => Scope.entered.In n tparams
  | .isWithinBounds pre owner tparams targs =>
    Scope.entered.In n pre ∧ Scope.entered.In n owner ∧
      Scope.entered.In n tparams ∧ Scope.entered.In n targs
  | .specializesSym ty s _ => Scope.entered.In n ty ∧ Scope.entered.In n s
  | .lub types | .glb types => Scope.entered.In n types
  | .instantiate ty => Scope.entered.In n ty
  | .suspend _ | .resume _ | .resetStats => True

/-- The types that a new variable starts with. -/
def startTypes : Operation → List Ty
  | .freshVar _ constraint => constraint.types
  | _ => []

def makes (s : CheckState) : Operation → List VarId
  | .freshVar .. => [⟨s.vars.vars.size⟩]
  | _ => []

theorem Names.within {op : Operation} (h : op.Names n) : op.Within .entered n := by
  cases op <;> exact h

end Operation

namespace Config

variable (cfg : Config)

/-- Each operation is about symbols that are there when its turn comes, and variables start without
skolems of inner levels. -/
def WellPosed : List Operation → CheckState → Prop
  | [], _ => True
  | op :: ops, s => op.Names s.table.size ∧ (∀ ty ∈ op.startTypes, s.table.Shallow 0 ty) ∧
    WellPosed ops ((cfg.run op).after s)

/-- The variables that the operations ask for, not those that queries make. -/
def made : List Operation → CheckState → List VarId
  | [], _ => []
  | op :: ops, s => op.makes s ++ made ops ((cfg.run op).after s)

/-- Those of them that no operation hands to a solver. -/
def unsolved (ops : List Operation) (s : CheckState) : List VarId :=
  (cfg.made ops s).filter fun v => ∀ op ∈ ops, .var v ∉ op.solved

end Config

/-! What is asked of tables and sessions can be computed. -/

section Decision

variable {n : Nat}

instance (s : SymbolId) : Decidable (Scope.entered.In n s) :=
  inferInstanceAs (Decidable (s.val < n ∨ s.val < Known.count))

instance (ty : Ty) : Decidable (Scope.entered.In n ty) :=
  inferInstanceAs (Decidable (ty.Over (fun s => s.val < n ∨ s.val < Known.count) fun _ => True))

instance {α : Type} [Scoped α] [∀ a : α, Decidable (Scope.entered.In n a)] (as : List α) :
    Decidable (Scope.entered.In n as) :=
  inferInstanceAs (Decidable (∀ a ∈ as, Scope.entered.In n a))

instance (t : SymbolTable) (level : Nat) (ty : Ty) : Decidable (t.Shallow level ty) :=
  decidable_of_iff _ SymbolTable.isRelatable_iff

instance (c : Constraint Ty) : Decidable (Scope.entered.In n c) :=
    decidable_of_iff _ Constraint.in_iff.symm

instance (r : SymbolRecord) : Decidable (Scope.entered.Fits n r) :=
  decidable_of_iff (Scope.entered.In n r.owner ∧ Scope.entered.In n r.tparams ∧
      Scope.entered.In n r.info ∧ Scope.entered.In n r.parents ∧
      Scope.entered.In n r.decls.toList ∧ Scope.entered.In n r.companion)
    ⟨fun ⟨h1, h2, h3, h4, h5, h6⟩ => ⟨h1, h2, h3, h4, h5, fun _ => h6⟩,
      fun ⟨h1, h2, h3, h4, h5, h6⟩ => ⟨h1, h2, h3, h4, h5, h6 trivial⟩⟩

instance (t : SymbolTable) : Decidable t.WellFormed :=
  decidable_of_iff (Known.count ≤ t.size ∧ (∀ i < Known.count, (t.flags ⟨i⟩).has .skolem = false) ∧
      (∀ i < t.size, Scope.entered.Fits t.size (t.get ⟨i⟩)) ∧
      ∀ p ∈ t.linearized, Scope.entered.In t.size p.2)
    ⟨fun ⟨h1, h2, h3, h4⟩ => ⟨h1, h2, h3, h4⟩, fun ⟨h1, h2, h3, h4⟩ => ⟨h1, h2, h3, h4⟩⟩

instance : (op : Operation) → Decidable (op.Names n)
  | .freshVar .. | .isSubtype .. | .isSubtypeDepth
    .. | .isSameType .. | .isDifferentType .. | .isSameTypes ..
  | .specializesSym .. => inferInstanceAs (Decidable (_ ∧ _))
  | .isWithinBounds .. => inferInstanceAs (Decidable (_ ∧ _ ∧ _ ∧ _))
  | .solve .. | .lub _ | .glb _ | .instantiate _ =>
    inferInstanceAs (Decidable (Scope.entered.In n _))
  | .suspend _ | .resume _ | .resetStats => .isTrue trivial

instance Config.decidableWellPosed (cfg : Config) :
    (ops : List Operation) → (s : CheckState) → Decidable (cfg.WellPosed ops s)
  | [], _ => .isTrue trivial
  | op :: ops, s =>
    have := cfg.decidableWellPosed ops ((cfg.run op).after s)
    inferInstanceAs (Decidable (_ ∧ _ ∧ _))

end Decision

/-- Between operations: the table is closed and the variables of `P` hold no skolem of an inner
level. -/
structure Settled (P : VarId → Prop) (s : CheckState) : Prop where
  closed : Scope.entered.Closed s.table
  outermost : s.skolems.depth = 0
  levelled : Levelled P s.table s.vars.vars

namespace Config

variable {cfg : Config} {P : VarId → Prop} {s : CheckState}

theorem updateVar_settled (h : Settled P s) (hf : ∀ info, (f info).origin = info.origin ∧
    (f info).level = info.level ∧ (f info).constraint = info.constraint) :
    Settled P ((CheckM.updateVar v f).after s) := by
  refine ⟨h.closed, h.outermost, ?_⟩
  show Levelled P s.table (s.vars.update v f).vars
  cases hi : s.vars.info? v with
  | none => exact (UndoLog.update_unknown hi f).symm ▸ h.levelled
  | some info =>
    rw [UndoLog.vars_update hi]
    obtain ⟨origin, level, constraint⟩ := hf info
    have entered := h.levelled.entered hi
    refine h.levelled.set hi ⟨origin ▸ entered.1, constraint ▸ entered.2⟩ level fun hv ty hty => ?_
    obtain ⟨info1, hi1, -, shallow⟩ := h.levelled.shallow hv
    obtain rfl : info = info1 := Option.some.inj (hi.symm.trans hi1)
    exact shallow ty (constraint ▸ hty)

variable (ha : cfg.annotations.Safe .entered)
include ha

/-- One operation: what it makes joins the variables kept out of solvers. -/
theorem run_settled {op : Operation} (h : Settled P s)
    (hop : op.Names s.table.size) (hstart : ∀ ty ∈ op.startTypes, s.table.Shallow 0 ty)
    (hsolved : ∀ v, P v → .var v ∉ op.solved) : Settled (fun v => P v ∨ v ∈ op.makes s)
    ((cfg.run op).after s) := by
  have level : ((cfg.run op).after s).skolems.depth = 0 :=
    (congrArg Brackets.level (cfg.run_brackets op s)).trans h.outermost
  have alone : op.makes s = [] → Settled P ((cfg.run op).after s) →
      Settled (fun v => P v ∨ v ∈ op.makes s) ((cfg.run op).after s) := fun hmakes h =>
    ⟨h.closed, h.outermost, h.levelled.imp fun v hv => hv.resolve_right (hmakes ▸ List.not_mem_nil)⟩
  cases hask : op.isQuestion with
  | true =>
    have unwatched : ∀ v, Ty.var v ∈ op.solved → Scope.entered.var v ∧ ¬ P v := fun v hv =>
      ⟨trivial, fun hP => hsolved v hP hv⟩
    have step := run_onward (instantiating_levelled P)
      ha.keeping hop.within unwatched hask h.closed h.levelled
    refine alone ?_ ⟨step.closed, level, step.holds⟩
    cases op with
    | freshVar => cases hask
    | _ => rfl
  | false =>
    cases op with
    | freshVar =>
      refine ⟨h.closed, h.outermost, h.levelled.push
        hop (fun _ => ⟨h.outermost, hstart⟩) fun v hv => ?_⟩
      exact hv.imp_right List.mem_singleton.1
    | suspend v | resume v => exact alone rfl (updateVar_settled h fun _ => ⟨rfl, rfl, rfl⟩)
    | resetStats => exact alone rfl ⟨h.closed, h.outermost, h.levelled⟩
    | _ => cases hask

theorem session_settled {ops : List Operation} (h : Settled P s) (hops : cfg.WellPosed ops s)
    (hsolved : ∀ v, P v → ∀ op ∈ ops, .var v ∉ op.solved) :
    Settled (fun v => P v ∨ v ∈ cfg.unsolved ops s) (cfg.session ops s) := by
  induction ops generalizing s P with
  | nil =>
    exact ⟨h.closed, h.outermost, h.levelled.imp fun v hv => hv.resolve_right List.not_mem_nil⟩
  | cons op ops ih =>
    obtain ⟨hop, hstart, hlater⟩ := hops
    have step := run_settled ha h hop hstart fun v hv => hsolved v hv op List.mem_cons_self
    -- a variable made here that a later operation hands to a solver is no longer watched
    have kept : Settled (fun v => (P v ∨ v ∈ op.makes s) ∧ ∀ op' ∈ ops, .var v ∉ op'.solved)
      ((cfg.run op).after s) :=
      ⟨step.closed, step.outermost, step.levelled.imp fun _ hv => hv.1⟩
    have last := ih kept hlater fun v hv => hv.2
    refine ⟨last.closed, last.outermost, last.levelled.imp fun v hv => ?_⟩
    obtain hv | hv := hv
    · exact .inl ⟨.inl hv, fun op' hop' => hsolved v hv op' (List.mem_cons_of_mem _ hop')⟩
    · obtain ⟨hmade, hunsolved⟩ := List.mem_filter.1 hv
      have later : ∀ op' ∈ ops, Ty.var v ∉ op'.solved := fun op' hop' =>
        of_decide_eq_true hunsolved op' (List.mem_cons_of_mem _ hop')
      obtain hmade | hmade := List.mem_append.1 hmade
      · exact .inl ⟨.inr hmade, later⟩
      · exact .inr (List.mem_filter.2 ⟨hmade, decide_eq_true later⟩)

end Config

/-! ## What a session leaves -/

/-- What stands for the variables `vs`. -/
def CheckState.instAmong (s : CheckState) (vs : List VarId) (v : VarId) : Option Ty :=
  if v ∈ vs then (s.vars.info? v).bind (·.constraint.inst) else none

theorem Settled.instAmong_shallow {vs : List VarId} {s : CheckState} (h : Settled (· ∈ vs) s)
    (hty : s.instAmong vs v = some ty) : s.table.Shallow 0 ty := by
  unfold CheckState.instAmong at hty
  split at hty
  next hv =>
    obtain ⟨info, hi, -, shallow⟩ := h.levelled.shallow hv
    rw [show s.vars.info? v = some info from hi] at hty
    exact shallow ty (List.mem_append_right _ (Option.mem_toList.2 hty))
  next => cases hty

/-- A class of pairs, covariant on the left and contravariant on the right, and two existentially
bound types. -/
def SymM.declarePairs : SymM Unit := do
  let pair ← newClass Known.scalaClass "Pair" .empty
  let left ← newTypeParam pair "A" .covariant
  let right ← newTypeParam pair "B" .contravariant
  modify (·.setTParams pair [left, right])
  let _ ← newExistential Known.scalaClass "q"
  let _ ← newExistential Known.scalaClass "r"

namespace Config

variable {cfg : Config}

/-- A variable that the operations of a session ask for and hand to no solver holds no skolem of a
level deeper than its own, neither in a bound nor in what stands for it, nor through what stands for
other such variables. -/
theorem unsolved_variables_hold_no_deeper_skolem (ha : cfg.annotations.Safe .entered)
    {t : SymbolTable} (ht : t.WellFormed) (queries : Nat) (events : Array QueryEvent)
    {ops : List Operation} (hops : cfg.WellPosed ops (.fresh cfg.policy t queries events)) :
    let s0 := CheckState.fresh cfg.policy t queries events
    let s := cfg.session ops s0
    let kept := cfg.unsolved ops s0
    ∀ v ∈ kept, ∃ info, s.vars.info? v = some info ∧
      ∀ ty ∈ info.constraint.types, s.table.Below (s.instAmong kept) info.level ty := by
  intro s0 s kept v hv
  have start : Settled (fun _ => False) s0 :=
    ⟨ht.closed, rfl, ht.known, fun hs => ht.plain _ hs, fun hi => (by cases hi), False.elim⟩
  have last := session_settled ha start hops fun _ => False.elim
  have settled : Settled (· ∈ kept) s := ⟨last.closed, last.outermost, last.levelled.imp fun _ =>
    .inr⟩
  obtain ⟨info, hi, level, shallow⟩ := settled.levelled.shallow hv
  refine ⟨info, hi, fun ty hty => ?_⟩
  rw [level]
  exact .of_shallow (shallow ty hty) fun u ty' hty' => settled.instAmong_shallow hty'

/-- A bound with a skolem is refused, and bounds that lead from one variable to another are not. -/
theorem refused_skolem_stays_out :
    let cfg : Config := ⟨{}, .typeConstraints, 9⟩
    let t := SymM.declarePairs.after .initial
    let pair (a b : Ty) := Ty.ref (.this Known.scalaClass) ⟨Known.count⟩ [a, b]
    let q := Ty.ref .noPrefix ⟨Known.count + 3⟩ []
    let ops := [.freshVar Known.anyType {}, .freshVar Known.anyType {},
      .isSubtype (.exist [⟨Known.count + 3⟩] (pair q Known.anyType))
        (pair (.var ⟨0⟩) Known.anyType),
      .isSubtype (.var ⟨1⟩) (.var ⟨0⟩), .isSameType (.var ⟨1⟩) (pair Known.anyType Known.anyType)]
    let s0 := CheckState.fresh cfg.policy t 0 #[]
    let s := cfg.session ops s0
    cfg.annotations.Safe .entered ∧ t.WellFormed ∧
      cfg.WellPosed ops s0 ∧ ⟨0⟩ ∈ cfg.unsolved ops s0 ∧ s.vars.info?
      ⟨0⟩ = some { origin := Known.anyType, level := 0, constraint := { lo := [.var ⟨1⟩] } } ∧
      ∃ info, s.vars.info? ⟨0⟩ = some info ∧
        ∀ ty ∈ info.constraint.types, s.table.Below
          (s.instAmong (cfg.unsolved ops s0)) info.level ty := by
  intro cfg t pair q ops s0 s
  have ha : cfg.annotations.Safe .entered := fun _ _ =>
    .get_bind fun _ _ _ _ => .pure fun _ _ => trivial
  have ht : t.WellFormed := by decide +kernel
  have hops : cfg.WellPosed ops s0 := by decide +kernel
  have hv : ⟨0⟩ ∈ cfg.unsolved ops s0 := by decide +kernel
  exact ⟨ha, ht, hops, hv, by decide +kernel, unsolved_variables_hold_no_deeper_skolem
    ha ht 0 #[] hops ⟨0⟩ hv⟩

/-- With `Pair[q, v] <: Pair[?1, ?1]`, asked within an opened existential type, `?1` is a lower
bound of `v`; then `?1` is solved by the skolem of `q`. So the bound stands for a skolem that is
deeper than `v`, and solving `v` enters it. -/
theorem skolem_escapes_through_solution :
    let cfg : Config := ⟨{}, .typeConstraints, 9⟩
    let t := SymM.declarePairs.after .initial
    let pair (a b : Ty) := Ty.ref (.this Known.scalaClass) ⟨Known.count⟩ [a, b]
    let q := Ty.ref .noPrefix ⟨Known.count + 3⟩ []
    let r := Ty.ref .noPrefix ⟨Known.count + 4⟩ []
    let ops :=
      [.freshVar Known.anyType {}, .isSubtype (.exist [⟨Known.count + 3⟩] (pair q (.var ⟨0⟩)))
      (.exist [⟨Known.count + 4⟩] (pair r r))]
    let s0 := CheckState.fresh cfg.policy t 0 #[]
    let s := cfg.session ops s0
    let s' := (cfg.solveVars [.var ⟨0⟩] [⟨Known.count + 1⟩] [.invariant] false .unlimited).after s
    let opened := Ty.ref .noPrefix ⟨Known.count + 5⟩ []
    (∀ i < t.size, (t.flags ⟨i⟩).has .skolem = false) ∧
      t.WellFormed ∧ cfg.WellPosed ops s0 ∧ s.vars.info?
      ⟨0⟩ = some { origin := Known.anyType, level := 0, constraint := { lo := [.var ⟨1⟩] } } ∧
      (Conformance.instantiate cfg (.var ⟨1⟩)).answer? s = some opened ∧
      ¬ s.table.Shallow 0 opened ∧ s'.vars.info? ⟨0⟩ = some
      { origin := Known.anyType, level := 0, constraint := { lo := [.var ⟨1⟩], inst := opened } } ∧
      ¬ s'.table.Shallow 0 opened := by
  decide +kernel

end Config

end Conformance

import Mathlib.Data.List.Chain
import Conformance.Proofs.Levels
import Mathlib.Data.Nat.Find

/-! # Symbols on the far side of a gap

Two runs that start from tables with the same declarations may enter the same symbols under
different identifiers: one of the tables has been grown by queries in the meantime, so a run over it
numbers on from further up. A gap moves every identifier behind the declarations up by a fixed
width. Moving names is an injective renaming that leaves what is declared where it is. -/

namespace Conformance

namespace SymbolTable

/-- `d` is a class behind a declared parent of the class `c`. -/
def Inherits (t : SymbolTable) (c d : SymbolId) : Prop :=
  (t.get c).isClass = true ∧ d ∈ (t.get c).parents.map t.parentClass ∧ (t.get d).isClass = true

/-- Inheritance has no cycle and no chain of more classes than a linearization follows. A cycle
would give chains of every length. -/
def Layered (t : SymbolTable) : Prop := ∀ cs, List.IsChain t.Inherits cs →
    cs.length ≤ Limits.linearizationDepth

/-- Symbols are numbered from the absent one on, and declarations name what is declared. -/
structure Standalone (t : SymbolTable) : Prop where
  known : Known.count ≤ t.size
  ids : ∀ i < t.size, (t.get ⟨i⟩).id = ⟨i⟩
  absent : (t.kind .none).isClass = false
  records : ∀ i < t.size, Scope.entered.Fits t.size (t.get ⟨i⟩)
  linearized : ∀ p ∈ t.linearized, p.1.val < t.size ∧ Scope.entered.In t.size p.2

instance (t : SymbolTable) : Decidable t.Standalone :=
  decidable_of_iff (Known.count ≤ t.size ∧ (∀ i < t.size, (t.get ⟨i⟩).id = ⟨i⟩) ∧
      (t.kind .none).isClass = false ∧ (∀ i < t.size, Scope.entered.Fits t.size (t.get ⟨i⟩)) ∧
      ∀ p ∈ t.linearized, p.1.val < t.size ∧ Scope.entered.In t.size p.2)
    ⟨fun ⟨h1, h2, h3, h4, h5⟩ => ⟨h1, h2, h3, h4, h5⟩, fun ⟨h1, h2, h3, h4, h5⟩ =>
      ⟨h1, h2, h3, h4, h5⟩⟩

end SymbolTable

/-- The declarations that two runs share, and how much further up the second one numbers what it
enters. -/
structure Gap where
  base : SymbolTable
  standalone : base.Standalone
  layered : base.Layered
  width : Nat

namespace Gap

variable (g : Gap)

def shift (s : SymbolId) : SymbolId := if s.val < g.base.size then s else ⟨s.val + g.width⟩

def back (s : SymbolId) : SymbolId := if s.val < g.base.size then s else ⟨s.val - g.width⟩

theorem back_shift (s : SymbolId) : g.back (g.shift s) = s := by
  unfold shift back
  split
  · rfl
  · have : ¬ s.val + g.width < g.base.size := by omega
    simp [this]

end Gap

/-! ## Linearizations do not depend on what is remembered

A linearization is computed once and then looked up. In a table with layered inheritance what is
looked up is what would be computed: no class is met below itself, and the levels suffice. Queries
enter classes, too (copies of classes, and classes of refinements), but a class that is entered has
the parents of a declared class or none, and no class inherits from it. So what a table remembers
stays right as the table grows. -/

variable {parents : List SymbolId} {n : Nat} {s : SymbolId}
  {ty : Ty} {t : SymbolTable} {c : SymbolId}

namespace SymbolTable

theorem Standalone.closed (h : t.Standalone) : Scope.entered.Closed t :=
  ⟨Nat.zero_le _, fun {s} hs => h.records s.val (Scope.lt_of_entered h.known hs), fun mem _ =>
    (h.linearized _ mem).2⟩

/-- The class behind a type over `S` depends on the kinds and infos of the symbols in `S`. -/
theorem parentClass_congr {t' : SymbolTable} {S : SymbolId → Prop} {V : VarId → Prop}
    (same : ∀ s, S s → (t'.get s).kind = (t.get s).kind ∧ (t'.get s).info = (t.get s).info)
    (closed : ∀ s, S s → (t.info s).Over S V) (hty : ty.Over S V) :
    t'.parentClass ty = t.parentClass ty := by
  unfold parentClass
  generalize Limits.aliasSteps = n
  induction n generalizing ty with
  | zero => rfl
  | succ n ih =>
    cases hty with
    | @ref _ s _ hpre hs hargs =>
      obtain ⟨kind, info⟩ := same s hs
      have isClass : (t'.get s).isClass = (t.get s).isClass := congrArg SymbolKind.isClass kind
      have isAlias : (t'.get s).isAliasType = (t.get s).isAliasType :=
        congrArg (· == SymbolKind.aliasType) kind
      have info : t'.info s = t.info s := info
      simp only [parentClassUpTo, isClass, isAlias, info, ih (closed s hs)]
    | annotated ha hbody => exact ih hbody
    | _ => rfl

theorem Standalone.parentClass_eq {t' : SymbolTable} (ht : t.Standalone) (h : t.Extends t.size t')
    (hty : Scope.entered.In t.size ty) : t'.parentClass ty = t.parentClass ty := by
  refine parentClass_congr (fun s hs => ?_) (fun s hs => (ht.closed.records hs).info) hty
  rw [h.get_eq (Scope.lt_of_entered ht.known hs)]
  exact ⟨rfl, rfl⟩

/-- The classes that parents contribute: those of the first one, then what each further one adds. -/
def mixed (lineage : SymbolId → List SymbolId) (parents : List SymbolId) : List SymbolId :=
  (parents.tail.filter (·.isPresent)).foldl (fun tail m => SymM.mixIn tail (lineage m)) <|
    match parents.head? with
    | some superclass => if superclass.isPresent then lineage superclass else []
    | none => []

/-- The linearization of `s`, of which at most `n` levels are computed. -/
def lineageUpTo (t : SymbolTable) : Nat → SymbolId → List SymbolId
  | 0, s => (t.linearization? s).getD []
  | n + 1, s => (t.linearization? s).getD <| if (t.get s).isClass then
    headed s (mixed (t.lineageUpTo n) ((t.get s).parents.map t.parentClass)) else []

/-- The linearization of a symbol with the record `r`, over the classes of `t`. -/
def lineage (t : SymbolTable) (s : SymbolId) (r : SymbolRecord) : List SymbolId :=
  (t.linearization? s).getD <| if r.isClass then headed s (mixed
    (t.lineageUpTo Limits.linearizationDepth) (r.parents.map t.parentClass)) else []

/-- Nothing distinguishes the first parent: its classes are added to none. -/
theorem mixed_eq (lineage : SymbolId → List SymbolId) (parents : List SymbolId) :
    mixed lineage parents = ((parents.filter (·.isPresent)).map lineage).foldl SymM.mixIn [] := by
  rw [List.foldl_map]
  cases parents with
  | nil => rfl
  | cons p ps =>
    cases present : p.isPresent with
    | false => simp [mixed, present]
    | true => simp [mixed, present, SymM.mixIn_nil]

theorem mixed_congr {l l' : SymbolId → List SymbolId}
    (h : ∀ p ∈ parents, p.isPresent = true → l p = l' p) : mixed l parents = mixed l' parents := by
  rw [mixed_eq, mixed_eq, List.map_congr_left fun p hp =>
    h p (List.mem_filter.1 hp).1 (List.mem_filter.1 hp).2]

theorem mem_mixed_iff {lineage : SymbolId → List SymbolId} :
    c ∈ mixed lineage parents ↔ ∃ p ∈ parents, p.isPresent = true ∧ c ∈ lineage p := by
  have each : ∀ ps : List SymbolId, List.Forall₂ (fun p cs => c ∈ cs ↔ c ∈ lineage p)
    ps (ps.map lineage) := fun ps =>
    List.forall₂_map_right_iff.2 (List.forall₂_same.2 fun _ _ => Iff.rfl)
  rw [mixed_eq, SymM.mem_mixIns (each _)]
  simp [and_assoc]

/-! ## Layers -/

/-- Inheritance that is layered goes down in rank. -/
structure Ranked (t : SymbolTable) (rank : SymbolId → Nat) : Prop where
  bounded (c : SymbolId) : rank c < Limits.linearizationDepth
  lower {c d : SymbolId} : t.Inherits c d → rank d < rank c

theorem Layered.exists_rank (h : t.Layered) : ∃ rank, t.Ranked rank := by
  classical
  -- the rank of a class is the length of the longest chain below it
  let chain (c : SymbolId) (k : Nat) : Prop := ∃ cs, List.IsChain t.Inherits (c :: cs) ∧
    cs.length = k
  let bound := Limits.linearizationDepth - 1
  have depth : Limits.linearizationDepth = bound + 1 := rfl
  have short : ∀ {c k}, chain c k → k ≤ bound := by
    rintro c k ⟨cs, hcs, rfl⟩
    have := h (c :: cs) hcs
    rw [List.length_cons] at this
    omega
  refine ⟨fun c => Nat.findGreatest (chain c) bound, fun c => ?_, fun {c d} hcd => ?_⟩
  · have := Nat.findGreatest_le (P := chain c) bound
    omega
  · have longest : chain d (Nat.findGreatest (chain d) bound) :=
      Nat.findGreatest_spec (P := chain d) (Nat.zero_le bound) ⟨[], .singleton d, rfl⟩
    obtain ⟨ds, hds, length⟩ := longest
    have longer : chain c (Nat.findGreatest (chain d) bound + 1) :=
      ⟨d :: ds, .cons_cons hcd hds, by rw [List.length_cons, length]⟩
    exact Nat.le_findGreatest (short longer) longer

variable {base : SymbolTable} {rank : SymbolId → Nat}

theorem Ranked.layered (h : t.Ranked rank) : t.Layered := by
  have below : ∀ (cs : List SymbolId) (c : SymbolId), List.IsChain t.Inherits (c :: cs) →
    cs.length ≤ rank c := by
    intro cs
    induction cs with
    | nil => exact fun _ _ => Nat.zero_le _
    | cons d cs ih =>
      intro c chain
      have hcd := h.lower (List.isChain_cons_cons.1 chain).1
      have hcs := ih d (List.isChain_cons_cons.1 chain).2
      rw [List.length_cons]
      omega
  intro cs chain
  cases cs with
  | nil => exact Nat.zero_le _
  | cons c cs => exact Nat.lt_of_le_of_lt (below cs c chain) (h.bounded c)

/-- With a level for each class below, more levels change nothing. -/
theorem Ranked.lineageUpTo_eq (hr : base.Ranked rank)
    {m : Nat} (hn : (base.get s).isClass = true → rank s < n)
    (hm : n ≤ m) : base.lineageUpTo m s = base.lineageUpTo n s := by
  induction n generalizing m s with
  | zero =>
    have notClass : (base.get s).isClass = false :=
      Bool.eq_false_iff.2 fun h => absurd (hn h) (Nat.not_lt_zero _)
    cases m with
    | zero => rfl
    | succ m => simp [lineageUpTo, notClass]
  | succ n ih =>
    obtain ⟨m, rfl⟩ : ∃ k, m = k + 1 := ⟨m - 1, by omega⟩
    rw [lineageUpTo, lineageUpTo]
    congr 1
    split
    next isClass =>
      have below : ∀ p ∈ (base.get s).parents.map base.parentClass, p.isPresent = true →
          base.lineageUpTo m p = base.lineageUpTo n p := by
        intro p hp _
        refine ih (fun hpc => ?_) (by omega)
        have := hr.lower ⟨isClass, hp, hpc⟩
        have := hn isClass
        omega
      rw [mixed_congr below]
    next => rfl

theorem Ranked.lineage_eq (hr : base.Ranked rank) (s : SymbolId) :
    base.lineage s (base.get s) = base.lineageUpTo Limits.linearizationDepth s :=
  hr.lineageUpTo_eq (fun _ => hr.bounded s) (Nat.le_succ _)

theorem mixed_in {sc : Scope} {lineage : SymbolId → List SymbolId}
    (h : ∀ p ∈ parents, sc.In n (lineage p)) : sc.In n (mixed lineage parents) := by
  intro c hc
  obtain ⟨p, hp, -, hc⟩ := mem_mixed_iff.1 hc
  exact h p hp c hc

theorem Standalone.lineageUpTo_entered (hb : base.Standalone) (n : Nat)
    (hs : Scope.entered.In base.size s) : Scope.entered.In base.size (base.lineageUpTo n s) := by
  have found : ∀ {s : SymbolId} {rest : List SymbolId}, Scope.entered.In base.size rest →
      Scope.entered.In base.size ((base.linearization? s).getD rest) := by
    intro s rest hrest
    cases h : base.linearization? s with
    | none => exact hrest
    | some classes => exact (hb.linearized _ (mem_of_lookup h)).2
  induction n generalizing s with
  | zero => exact found .nil
  | succ n ih =>
    refine found ?_
    split
    · have fits := hb.closed.records hs
      refine headed_in hs (mixed_in fun p hp => ih ?_)
      obtain ⟨ty, hty, rfl⟩ := List.mem_map.1 hp
      exact hb.closed.at.parentClass (fits.parents ty hty)
    · exact .nil

/-! ## Growth -/

/-- `t` is `base` with symbols entered by queries, and what it remembers is right. -/
structure Grown (base t : SymbolTable) : Prop where
  appended : base.Extends base.size t
  kin (s : SymbolId) : (t.get s).parents = [] ∨ ∃ c, (t.get s).parents = (base.get c).parents ∧
    ((t.get s).isClass = true → (base.get c).isClass = true)
  remembered {s : SymbolId} {classes : List SymbolId} :
    t.linearization? s = some classes → s.val < t.size ∧ classes = base.lineage s (t.get s)
  kept {s : SymbolId} : t.linearization? s = none → base.linearization? s = none

theorem Standalone.grown (hb : base.Standalone) : base.Grown base := by
  refine ⟨.refl _ _, fun s => .inr ⟨s, rfl, id⟩, fun {s classes} found => ?_, id⟩
  refine ⟨(hb.linearized _ (mem_of_lookup found)).1, ?_⟩
  rw [lineage, found, Option.getD_some]

variable {t : SymbolTable}

theorem get_add_of_lt (hs : s.val < t.size) (r : SymbolRecord) : (t.add r).get s = t.get s :=
  (t.extends_add (Nat.le_refl _) r).get_eq hs

theorem linearization?_remember (s c : SymbolId) (classes : List SymbolId) :
    (t.rememberLinearization c classes).linearization?
    s = if s = c then some classes else t.linearization? s := by
  simp only [linearization?, rememberLinearization, List.lookup_cons]
  by_cases h : s = c
  · simp [h]
  · have miss : (s == c) = false := beq_eq_false_iff_ne.2 h
    rw [miss, if_neg h]

namespace Grown

theorem get_eq (h : base.Grown t) (hs : s.val < base.size) : t.get s = base.get s :=
    h.appended.get_eq hs

theorem lt_of_isClass (hb : base.Standalone) (h : base.Grown t)
    (hs : (t.get s).isClass = true) : s.val < t.size := by
  refine Nat.lt_of_not_le fun unknown => ?_
  have first : SymbolId.none.val < base.size := Nat.lt_of_lt_of_le (by decide) hb.known
  have absent : (base.get .none).isClass = false := hb.absent
  rw [get_of_size_le unknown, h.get_eq first, absent] at hs
  cases hs

theorem parents_entered (hb : base.Standalone) (h : base.Grown t) (s : SymbolId) :
    Scope.entered.In base.size (t.get s).parents := by
  obtain none | ⟨c, same, -⟩ := h.kin s
  · rw [none]
    exact .nil
  · rw [same]
    by_cases hc : c.val < base.size
    · exact (hb.records c.val hc).parents
    · rw [get_of_size_le (Nat.le_of_not_lt hc)]
      exact (hb.records _ (Nat.lt_of_lt_of_le (by decide) hb.known)).parents

theorem parentClass_eq (hb : base.Standalone) (h : base.Grown t)
    (hty : Scope.entered.In base.size ty) : t.parentClass ty = base.parentClass ty :=
    hb.parentClass_eq h.appended hty

theorem parentClasses_eq (hb : base.Standalone) (h : base.Grown t) (s : SymbolId) :
    (t.get s).parents.map t.parentClass = (t.get s).parents.map base.parentClass :=
  List.map_congr_left fun ty hty => h.parentClass_eq hb (h.parents_entered hb s ty hty)

theorem parentClass_lt (hb : base.Standalone) (h : base.Grown t) {p : SymbolId}
    (hp : p ∈ (t.get s).parents.map base.parentClass) : p.val < base.size := by
  obtain ⟨ty, hty, rfl⟩ := List.mem_map.1 hp
  exact Scope.lt_of_entered hb.known (hb.closed.at.parentClass (h.parents_entered hb s ty hty))

theorem add (h : base.Grown t) {r : SymbolRecord} (hr : r.parents = [] ∨
    ∃ c, r.parents = (base.get c).parents ∧ (r.isClass = true → (base.get c).isClass = true)) :
    base.Grown (t.add r) := by
  refine ⟨h.appended.trans (t.extends_add h.appended.size_le r), fun s =>
    ?_, fun {s classes} found => ?_, h.kept⟩
  · obtain old | new := t.get_add r s
    · rw [old]
      exact h.kin s
    · rw [new]
      exact hr
  · obtain ⟨hs, same⟩ := h.remembered found
    rw [get_add_of_lt hs, size_add]
    exact ⟨Nat.lt_succ_of_lt hs, same⟩

theorem update (h : base.Grown t) (hc : base.size ≤ c.val) {f : SymbolRecord → SymbolRecord}
    (hf : ∀ r, (f r).id = r.id ∧ (f r).parents = r.parents ∧ (f r).kind = r.kind) :
    base.Grown (t.update c f) := by
  have parents : ∀ s, ((t.update c f).get s).parents = (t.get s).parents := fun s => by
    obtain same | same := t.get_update c f s
    · rw [same]
    · rw [same, (hf _).2.1]
  have isClass : ∀ s, ((t.update c f).get s).isClass = (t.get s).isClass := fun s => by
    obtain same | same := t.get_update c f s
    · rw [same]
    · rw [same, SymbolRecord.isClass, (hf _).2.2, SymbolRecord.isClass]
  refine ⟨h.appended.trans (t.extends_update hc fun r => (hf r).1), fun s =>
    ?_, fun {s classes} found => ?_, h.kept⟩
  · rw [parents, isClass]
    exact h.kin s
  · obtain ⟨hs, same⟩ := h.remembered found
    rw [size_update, lineage, parents, isClass]
    exact ⟨hs, same⟩

theorem remember (h : base.Grown t) (hc : c.val < t.size) :
    base.Grown (t.rememberLinearization c (base.lineage c (t.get c))) := by
  refine ⟨h.appended.trans (.of_records rfl), h.kin, fun {s classes} found =>
    ?_, fun {s} missing => ?_⟩
  · rw [linearization?_remember] at found
    split at found
    next same =>
      subst same
      exact ⟨hc, (Option.some.inj found).symm⟩
    next => exact h.remembered found
  · rw [linearization?_remember] at missing
    split at missing
    · cases missing
    · exact h.kept missing

/-- New classes stand above all declared ones. -/
def rankIn (base : SymbolTable) (rank : SymbolId → Nat) (s : SymbolId) : Nat :=
  if s.val < base.size then rank s else Limits.linearizationDepth - 1

theorem rankIn_lt (hr : base.Ranked rank) (s : SymbolId) :
    rankIn base rank s < Limits.linearizationDepth := by
  unfold rankIn
  split
  · exact hr.bounded s
  · decide

theorem rankIn_lower (hb : base.Standalone) (hr : base.Ranked rank) (h : base.Grown t)
    {p : SymbolId} (hs : (t.get s).isClass = true) (hp : p ∈ (t.get s).parents.map base.parentClass)
    (hpc : (base.get p).isClass = true) : rankIn base rank p < rankIn base rank s := by
  rw [rankIn, if_pos (h.parentClass_lt hb hp), rankIn]
  split
  next declared =>
    rw [h.get_eq declared] at hs hp
    exact hr.lower ⟨hs, hp, hpc⟩
  next =>
    obtain none | ⟨c, same, isClass⟩ := h.kin s
    · rw [none] at hp
      cases hp
    · have := hr.lower ⟨isClass hs, same ▸ hp, hpc⟩
      have := hr.bounded c
      omega

end Grown

end SymbolTable

/-! ## Runs -/

namespace SymM

open SymbolTable

/-- From any table of which `I` holds, `x` gives `a` and leads to such a table again. -/
def Gives (I : SymbolTable → Prop) {α : Type} (x : SymM α) (a : α) : Prop :=
    ∀ t, I t → ∃ t', x t = .ok a t' ∧ I t'

section Gives

variable {I : SymbolTable → Prop} {α β : Type}

theorem Gives.pure (a : α) : Gives I (Pure.pure a) a := fun t ht => ⟨t, rfl, ht⟩

theorem Gives.bind {x : SymM α} {f : α → SymM β} {a : α}
    {b : β} (hx : Gives I x a) (hf : Gives I (f a) b) : Gives I (x >>= f) b := by
  intro t ht
  obtain ⟨t1, run, ht1⟩ := hx t ht
  rw [CheckM.bind_ok run]
  exact hf t1 ht1

theorem gives_iff {x : SymM α} {a : α} : Gives I x a ↔ Attains I True x (· = a) := by
  refine ⟨fun h => .of_run fun t ht => ?_, fun h t ht => ?_⟩
  · obtain ⟨t', run, ht'⟩ := h t ht
    exact ⟨a, t', run, ht', rfl⟩
  · obtain ⟨_, t', run, ht', rfl⟩ := h.run ht trivial
    exact ⟨t', run, ht'⟩

end Gives

/-- Over the records of `t`, `x` gives `a`, whatever is remembered. -/
def Recalls (base t : SymbolTable) {α : Type} (x : SymM α) (a : α) : Prop :=
  ∀ t', t'.records = t.records → base.Grown t' → ∃ t'', x t' = .ok a t'' ∧
    t''.records = t.records ∧ base.Grown t''

variable {base t : SymbolTable} {rank : SymbolId → Nat}

theorem recalls_iff {α : Type} {x : SymM α} {a : α} :
    Recalls base t x a ↔ Gives (fun t' => t'.records = t.records ∧ base.Grown t') x a := by
  simp only [Recalls, Gives, and_imp]

theorem linearize_recalls (hb : base.Standalone) (hr : base.Ranked rank)
    (ht : base.Grown t) (n : Nat) {active : List SymbolId}
    (hn : (t.get s).isClass = true → Grown.rankIn base rank s < n ∧
      ∀ c ∈ active, Grown.rankIn base rank s < Grown.rankIn base rank c) :
    Recalls base t (linearize n active s) (base.lineage s (t.get s)) := by
  refine recalls_iff.2 (gives_iff.2 (linearize_attains
    (V := fun n active s => (t.get s).isClass = true → Grown.rankIn base rank s < n ∧
      ∀ c ∈ active, Grown.rankIn base rank s < Grown.rankIn base rank c)
    (R := fun s cs => cs = base.lineage s (t.get s)) ?_ ?_ ?_ hn))
  all_goals
    rintro t' n active s
  · intro cs ⟨records, grown⟩ _ found
    rw [(grown.remembered found).2, SymbolTable.get, records, ← SymbolTable.get]
  · rintro ⟨records, grown⟩ valid found stop
    rw [SymbolTable.get, records, ← SymbolTable.get] at stop
    have other : (t.get s).isClass = false := by
      rw [← Bool.not_eq_true]
      intro isClass
      obtain ⟨level, above⟩ := valid isClass
      obtain rfl | mem := stop isClass
      · exact Nat.not_lt_zero _ level
      · exact Nat.lt_irrefl _ (above s mem)
    rw [lineage, grown.kept found, other]
    rfl
  · rintro ⟨records, grown⟩ valid found isClass -
    have parents : (t'.get s).parents.map t'.parentClass =
      (t.get s).parents.map base.parentClass := by
      rw [grown.parentClasses_eq hb, SymbolTable.get, records, ← SymbolTable.get]
    rw [SymbolTable.get, records, ← SymbolTable.get] at isClass
    obtain ⟨level, above⟩ := valid isClass
    rw [parents]
    -- the parents are declared, and lower than the class
    have declared : ∀ p ∈ (t.get s).parents.map base.parentClass, t.get p = base.get p :=
      fun p hp =>
      ht.get_eq (ht.parentClass_lt hb hp)
    refine ⟨fun p hp _ hpc => ?_, fun css hcss => ?_⟩
    · have lower := ht.rankIn_lower hb hr isClass hp (declared p hp ▸ hpc)
      refine ⟨by omega, fun c hc => ?_⟩
      obtain rfl | hc := List.mem_cons.1 hc
      · exact lower
      · exact Nat.lt_trans lower (above c hc)
    · have full : headed s (css.foldl mixIn []) = base.lineage s (t.get s) := by
        rw [eq_map_of_forall₂ hcss, ← mixed_eq, lineage, grown.kept found, isClass]
        refine congrArg (headed s) (mixed_congr fun p hp _ => ?_)
        rw [declared p hp, hr.lineage_eq]
      refine ⟨full, fun t1 ⟨records1, grown1⟩ => ⟨records1, ?_⟩⟩
      have same : t1.get s = t.get s := by rw [SymbolTable.get, records1, ← SymbolTable.get]
      rw [full, ← same]
      exact grown1.remember (grown1.lt_of_isClass hb (same ▸ isClass))

/-- The linearization of a symbol depends on its record and on what is declared. -/
theorem baseClasses_recalls (hb : base.Standalone) (hl : base.Layered) (ht : base.Grown t)
    (s : SymbolId) : Recalls base t (baseClasses s) (base.lineage s (t.get s)) := by
  obtain ⟨rank, hr⟩ := hl.exists_rank
  exact linearize_recalls hb hr ht _ fun _ => ⟨Grown.rankIn_lt hr s, fun _ h => nomatch h⟩

end SymM

end Conformance

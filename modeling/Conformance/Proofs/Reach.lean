import Mathlib.Algebra.BigOperators.Group.Finset.Basic
import Mathlib.Data.Finset.Card
import Mathlib.Data.Finset.Range
import Mathlib.Logic.Relation
import Conformance.Reach
import Conformance.Subst.Basic

/-! # The components of a type are met, and nothing else

A sweep keeps with each type its parts and notes the symbols that it binds, and it follows the infos
of the symbols noted round by round. A round that meets no new info changes nothing, and each other
round meets one of the infos in the table. So the rounds suffice, and what is met in the end is
closed under components.

The search looks at no type twice and puts on its stack only components of what it looked at. So the
sweep bounds its turns, and it answers `true` just where a component has the property. -/

namespace Conformance

variable {syms : List SymbolId} {c ty : Ty} {t : SymbolTable}

/-- Immediate components that stand in the type itself. -/
def Ty.parts : Ty → List Ty
  | .single pre _ => [pre]
  | .ref pre _ args => pre :: args
  | .refined parents _ _ => parents
  | .exist _ body => [body]
  | .annotated _ body => [body]
  | .boundedWildcard b => [b]
  | .bounds lo hi => [lo, hi]
  | .method _ r _ => [r]
  | .nullary r => [r]
  | .poly _ r => [r]
  | .notNull b => [b]
  | _ => []

/-- From a type to its components, however deep, and from a variable to what stands for it. -/
inductive SymbolTable.Leads (t : SymbolTable) (inst? : VarId → Option Ty) : Ty → Ty → Prop
  | refl (ty : Ty) : Leads t inst? ty ty
  | child {ty c ty' : Ty} : c ∈ t.children ty → Leads t inst? c ty' → Leads t inst? ty ty'
  | inst {v : VarId} {ty ty' : Ty} : inst? v = some ty →
    Leads t inst? ty ty' → Leads t inst? (.var v) ty'

/-- A component, however deep. -/
abbrev SymbolTable.Reaches (t : SymbolTable) : Ty → Ty → Prop := t.Leads fun _ => none

theorem SymbolTable.mem_infos {info : Ty} : info ∈ t.infos syms ↔
    ∃ s ∈ syms, t.info s = info ∧ info.isPresent = true := by
  simp only [infos, List.mem_filter, List.mem_map]
  constructor
  · rintro ⟨⟨s, hs, rfl⟩, present⟩
    exact ⟨s, hs, rfl, present⟩
  · rintro ⟨s, hs, rfl, present⟩
    exact ⟨⟨s, hs, rfl⟩, present⟩

theorem SymbolTable.mem_children : c ∈ t.children ty ↔ c ∈ ty.parts ∨ c ∈ t.infos ty.binders := by
  cases ty with
  | refined parents decls cls => exact List.mem_append
  | exist | method | poly => exact List.mem_append.trans Or.comm
  | _ => exact (or_iff_left List.not_mem_nil).symm

theorem SymbolTable.info_mem_children {b : SymbolId}
    (hb : b ∈ ty.binders) : t.info b ∈ t.children ty ∨ t.info b = .noType := by
  cases hp : (t.info b).isPresent with
  | true => exact .inl (mem_children.2 (.inr (mem_infos.2 ⟨b, hb, rfl, hp⟩)))
  | false => exact .inr (by cases hi : t.info b <;> simp_all [Ty.isPresent])

theorem SymbolTable.Leads.trans {inst? : VarId → Option Ty} {ty1 ty2 ty3 : Ty}
    (h : t.Leads inst? ty1 ty2) (h' : t.Leads inst? ty2 ty3) : t.Leads inst? ty1 ty3 := by
  induction h with
  | refl => exact h'
  | child mem _ ih => exact .child mem (ih h')
  | inst hv _ ih => exact .inst hv (ih h')

namespace Sweep

/-- With each type its parts are there, and the symbols that it binds are noted. -/
def Full (w : Sweep) : Prop :=
  ∀ ty ∈ w.types.elems, (∀ c ∈ ty.parts, c ∈ w.types.elems) ∧ ∀ s ∈ ty.binders, s ∈ w.bound

/-- Only types with `R` are met, and only symbols noted that such types bind. -/
def Only (R : Ty → Prop) (w : Sweep) : Prop :=
  (∀ ty ∈ w.types.elems, R ty) ∧ ∀ s ∈ w.bound, ∃ ty, R ty ∧ s ∈ ty.binders

/-- `w'` is `w` with the types `tys` and their parts met. -/
structure Visits (w : Sweep) (tys : List Ty) (w' : Sweep) : Prop where
  full : w'.Full
  only {R : Ty → Prop} : (∀ ty c, R ty → c ∈ ty.parts → R c) →
    (∀ ty ∈ tys, R ty) → w.Only R → w'.Only R
  kept {ty : Ty} : ty ∈ w.types.elems → ty ∈ w'.types.elems
  noted : w.bound <+: w'.bound
  met {ty : Ty} : ty ∈ tys → ty ∈ w'.types.elems

variable {w w1 w2 : Sweep} {tys tys' : List Ty}

theorem Visits.refl (hw : w.Full) : Visits w [] w :=
    ⟨hw, fun _ _ => id, id, List.prefix_rfl, fun h => nomatch h⟩

theorem Visits.trans (h : Visits w tys w1) (h' : Visits w1 tys' w2) : Visits w (tys ++ tys') w2 :=
  ⟨h'.full, fun hR hall hw => h'.only hR (fun ty hty => hall ty (List.mem_append_right _ hty))
      (h.only hR (fun ty hty => hall ty (List.mem_append_left _ hty)) hw),
    fun hty => h'.kept (h.kept hty), h.noted.trans h'.noted,
    fun hty => (List.mem_append.1 hty).elim (fun hty => h'.kept (h.met hty)) h'.met⟩

theorem mem_add : c ∈ (w.add ty).types.elems ↔ c = ty ∨ c ∈ w.types.elems := by
  rw [add, KeySet.elems_insert]
  split
  next hty =>
    constructor
    · exact .inr
    · rintro (rfl | hc)
      · exact hty
      · exact hc
  next => exact List.mem_cons

theorem noted_new (syms bound : List SymbolId) :
    let noted := syms.foldl (fun bound s => if bound.contains s then bound else bound ++ [s]) bound
    bound <+: noted ∧ ∀ s, s ∈ noted ↔ s ∈ bound ∨ s ∈ syms := by
  induction syms generalizing bound with
  | nil => exact ⟨List.prefix_rfl, fun s => (or_iff_left List.not_mem_nil).symm⟩
  | cons s syms ih =>
    -- the step of `s` itself
    have here : bound <+: (if bound.contains s then bound else bound ++ [s]) ∧
        ∀ s', s' ∈ (if bound.contains s then bound else bound ++ [s]) ↔ s' ∈ bound ∨ s' = s := by
      split
      next h =>
        refine ⟨List.prefix_rfl, fun s' => (or_iff_left_of_imp ?_).symm⟩
        rintro rfl
        exact List.contains_iff_mem.1 h
      next => exact ⟨List.prefix_append _ _, fun s' => by rw [List.mem_append, List.mem_singleton]⟩
    obtain ⟨later, mem⟩ := ih (if bound.contains s then bound else bound ++ [s])
    refine ⟨here.1.trans later, fun s' => ?_⟩
    rw [List.foldl_cons, mem, here.2, List.mem_cons, or_assoc]

theorem Visits.add (h : Visits w ty.parts w1) : Visits w [ty] (w1.add ty) := by
  obtain ⟨noted, mem⟩ := noted_new ty.binders w1.bound
  refine ⟨fun c hc => ?_, fun {R} hR hall hw => ?_, fun hc =>
    mem_add.2 (.inr (h.kept hc)), h.noted.trans noted, fun hc => ?_⟩
  · obtain rfl | hc := mem_add.1 hc
    · exact ⟨fun c hc => mem_add.2 (.inr (h.met hc)), fun s hs => (mem s).2 (.inr hs)⟩
    · obtain ⟨parts, binders⟩ := h.full c hc
      exact ⟨fun c' hc' => mem_add.2 (.inr (parts c' hc')), fun s hs => noted.subset (binders s hs)⟩
  · have hty : R ty := hall ty List.mem_cons_self
    obtain ⟨types, bound⟩ := h.only hR (fun c hc => hR ty c hty hc) hw
    refine ⟨fun c hc => (mem_add.1 hc).elim (fun h => h ▸ hty) (types c), fun s hs => ?_⟩
    exact ((mem s).1 hs).elim (bound s) fun hs => ⟨ty, hty, hs⟩
  · exact mem_add.2 (.inl (List.mem_singleton.1 hc))

theorem visit_of_mem (h : ty ∈ w.types.elems) : w.visit ty = w := by
  rw [visit.eq_def, if_pos (KeySet.contains_iff.2 h)]

theorem visitAll_of_mem (h : ∀ ty ∈ tys, ty ∈ w.types.elems) : w.visitAll tys = w := by
  induction tys with
  | nil => rw [visitAll]
  | cons ty tys ih =>
    rw [visitAll, visit_of_mem (h ty List.mem_cons_self)]
    exact ih fun ty' hty' => h ty' (List.mem_cons_of_mem _ hty')

theorem visits : (∀ w ty, w.Full → Visits w [ty] (w.visit ty)) ∧ ∀ w tys, w.Full →
    Visits w tys (w.visitAll tys) := by
  refine visit.mutual_induct _ _ ?met ?new ?nil ?cons
  case met =>
    intro ty w hty hw
    rw [visit_of_mem (KeySet.contains_iff.1 hty)]
    exact ⟨hw, fun _ _ => id, id, List.prefix_rfl, fun h =>
      List.mem_singleton.1 h ▸ KeySet.contains_iff.1 hty⟩
  case new =>
    intro ty w hty ih hw
    cases ty with
    | single | refined | exist | annotated | boundedWildcard | method | nullary | poly | notNull =>
      rw [visit, if_neg hty]
      exact (ih hw).add
    | ref | bounds =>
      rw [visit, if_neg hty]
      have first := ih.1 hw
      exact (first.trans (ih.2 first.full)).add
    | _ =>
      rw [visit.eq_def, if_neg hty]
      exact (Visits.refl hw).add
  case nil =>
    intro w hw
    rw [visitAll]
    exact .refl hw
  case cons =>
    intro w ty tys ih ihs hw
    rw [visitAll]
    have first := ih hw
    exact first.trans (ihs first.full)

end Sweep

namespace SymbolTable

variable {t : SymbolTable} {w : Sweep}

/-- An info that says something is the info of a symbol in the table. -/
theorem exists_info {s : SymbolId} (h : (t.info s).isPresent = true) :
    ∃ i < t.size, t.info ⟨i⟩ = t.info s := by
  by_cases hs : s.val < t.size
  · exact ⟨s.val, hs, rfl⟩
  · -- an unknown symbol is read as the first one, and as the absent one if there is none
    have unknown : t.records[s.val]? = none := Array.getElem?_eq_none (Nat.le_of_not_lt hs)
    by_cases empty : t.size = 0
    · have first : t.records[0]? = none := Array.getElem?_eq_none (Nat.le_of_eq empty)
      rw [info, get, Array.getD_eq_getD_getElem?, Array.getD_eq_getD_getElem?, unknown, first] at h
      exact absurd h (by decide)
    · refine ⟨0, Nat.pos_of_ne_zero empty, ?_⟩
      obtain ⟨r, first⟩ : ∃ r, t.records[0]? = some r :=
        ⟨_, Array.getElem?_eq_getElem (Nat.pos_of_ne_zero empty)⟩
      simp only [info, get, Array.getD_eq_getD_getElem?,
        unknown, first, Option.getD_some, Option.getD_none]

/-- The symbols of the table whose infos are not met. -/
def unmet (t : SymbolTable) (w : Sweep) : Finset Nat :=
  (Finset.range t.size).filter fun i => (t.info ⟨i⟩).isPresent = true ∧ t.info ⟨i⟩ ∉ w.types.elems

theorem mem_unmet {i : Nat} : i ∈ t.unmet w ↔ i < t.size ∧
    (t.info ⟨i⟩).isPresent = true ∧ t.info ⟨i⟩ ∉ w.types.elems := by
  rw [unmet, Finset.mem_filter, Finset.mem_range]

/-- The infos of the symbols are met. -/
def Met (t : SymbolTable) (w : Sweep) (syms : List SymbolId) : Prop :=
    ∀ info ∈ t.infos syms, info ∈ w.types.elems

theorem met_append {syms' : List SymbolId} (h : t.Met w syms)
    (h' : t.Met w syms') : t.Met w (syms ++ syms') := by
  intro info hinfo
  obtain ⟨s, hs, rfl, present⟩ := mem_infos.1 hinfo
  obtain hs | hs := List.mem_append.1 hs
  · exact h _ (mem_infos.2 ⟨s, hs, rfl, present⟩)
  · exact h' _ (mem_infos.2 ⟨s, hs, rfl, present⟩)

/-- Meeting the infos of some symbols, of which one was not met, leaves fewer unmet. -/
theorem card_unmet_lt {w' : Sweep} (h : w.Visits (t.infos syms) w') (hnew : ¬ t.Met w syms) :
    (t.unmet w').card < (t.unmet w).card := by
  unfold Met at hnew
  push Not at hnew
  obtain ⟨info, hinfo, hw⟩ := hnew
  obtain ⟨s, hs, rfl, present⟩ := mem_infos.1 hinfo
  obtain ⟨i, hi, heq⟩ := exists_info present
  refine Finset.card_lt_card (Finset.ssubset_iff_of_subset ?_ |>.2 ⟨i, ?_, ?_⟩)
  · intro j hj
    obtain ⟨hsize, hpresent, hunmet⟩ := mem_unmet.1 hj
    exact mem_unmet.2 ⟨hsize, hpresent, fun hmet => hunmet (h.kept hmet)⟩
  · exact mem_unmet.2 ⟨hi, heq ▸ present, heq ▸ hw⟩
  · intro hj
    exact (mem_unmet.1 hj).2.2 (heq ▸ h.met hinfo)

theorem follow_of_done (n : Nat) : t.follow n w.bound.length w = w := by
  cases n with
  | zero => rfl
  | succ n => rw [follow, List.drop_length]

/-- With more rounds than infos unmet, the sweep ends with all of them met. -/
theorem follow_meets (n done : Nat) (hw : w.Full) (hdone : t.Met w (w.bound.take done))
    (hn : (t.unmet w).card < n) : (t.follow n done w).Full ∧
    w.types.elems ⊆ (t.follow n done w).types.elems ∧
      t.Met (t.follow n done w) (t.follow n done w).bound := by
  induction n generalizing done w with
  | zero => exact absurd hn (Nat.not_lt_zero _)
  | succ n ih =>
    have split : w.bound.take done ++ w.bound.drop done = w.bound := List.take_append_drop _ _
    rw [follow]
    split
    next hnew =>
      rw [hnew, List.append_nil] at split
      exact ⟨hw, List.Subset.refl _, split ▸ hdone⟩
    next =>
      by_cases met : t.Met w (w.bound.drop done)
      · -- nothing new is met, so the next round has nothing to follow
        rw [Sweep.visitAll_of_mem met, follow_of_done]
        exact ⟨hw, List.Subset.refl _, split ▸ met_append hdone met⟩
      · have round := Sweep.visits.2 w (t.infos (w.bound.drop done)) hw
        generalize w.visitAll (t.infos (w.bound.drop done)) = w' at round
        have fewer := card_unmet_lt round met
        have known : w'.bound.take w.bound.length = w.bound :=
          (List.prefix_iff_eq_take.1 round.noted).symm
        have old : t.Met w' (w.bound.take done) := fun info hinfo => round.kept (hdone info hinfo)
        have new : t.Met w' (w.bound.drop done) := fun info hinfo => round.met hinfo
        have all : t.Met w' (w'.bound.take w.bound.length) := by
          rw [known, ← split]
          exact met_append old new
        obtain ⟨full, kept, closed⟩ := ih w.bound.length round.full all (by omega)
        exact ⟨full, fun _ hty => kept (round.kept hty), closed⟩

/-- Rounds meet nothing but components of what is met. -/
theorem follow_only {R : Ty → Prop} (hR : ∀ ty c, R ty → c ∈ t.children ty → R c)
    (n done : Nat) (hw : w.Full) (hon : w.Only R) : (t.follow n done w).Only R := by
  induction n generalizing done w with
  | zero => exact hon
  | succ n ih =>
    rw [follow]
    split
    next => exact hon
    next =>
      have round := Sweep.visits.2 w (t.infos (w.bound.drop done)) hw
      refine ih _ round.full (round.only (fun ty c hty hc => hR ty c hty (mem_children.2 (.inl hc)))
        ?_ hon)
      intro info hinfo
      obtain ⟨s, hs, rfl, present⟩ := mem_infos.1 hinfo
      obtain ⟨ty, hty, hbinds⟩ := hon.2 s (List.mem_of_mem_drop hs)
      exact hR ty _ hty (mem_children.2 (.inr (mem_infos.2 ⟨s, hbinds, rfl, present⟩)))

theorem mem_reachable : c ∈ t.reachable ty ↔ t.Reaches ty c := by
  have empty : ({} : Sweep).Full := fun _ h => nomatch h
  have first := Sweep.visits.1 {} ty empty
  constructor
  · have closed : ∀ ty1 c, t.Reaches ty ty1 → c ∈ t.children ty1 → t.Reaches ty c :=
      fun ty1 c h hc =>
      h.trans (.child hc (.refl c))
    have nothing : ({} : Sweep).Only (t.Reaches ty) :=
      ⟨fun _ h => (nomatch h), fun _ h => nomatch h⟩
    have start : (({} : Sweep).visit ty).Only (t.Reaches ty) := by
      refine first.only (fun ty1 c h hc => closed ty1 c h (mem_children.2 (.inl hc)))
        (fun ty1 h => ?_) nothing
      rw [List.mem_singleton.1 h]
      exact .refl ty
    exact (follow_only closed (t.size + 1) 0 first.full start).1 c
  · have bound : (t.unmet (({} : Sweep).visit ty)).card < t.size + 1 := by
      have := Finset.card_filter_le (Finset.range t.size) fun i =>
        (t.info ⟨i⟩).isPresent = true ∧ t.info ⟨i⟩ ∉ (({} : Sweep).visit ty).types.elems
      rw [Finset.card_range] at this
      exact Nat.lt_succ_of_le this
    obtain ⟨full, kept, infos⟩ := follow_meets (t.size + 1)
      0 first.full (fun _ h => nomatch h) bound
    -- what is met is closed under the steps that lead to a component
    have inner : ∀ {ty' c' : Ty}, t.Reaches ty' c' →
      ty' ∈ t.reachable ty → c' ∈ t.reachable ty := by
      intro ty' c' hc hty'
      induction hc with
      | refl => exact hty'
      | child hchild _ ih =>
        refine ih ?_
        obtain ⟨parts, binders⟩ := full _ hty'
        obtain hpart | hinfo := mem_children.1 hchild
        · exact parts _ hpart
        · obtain ⟨s, hs, rfl, present⟩ := mem_infos.1 hinfo
          exact infos _ (mem_infos.2 ⟨s, binders s hs, rfl, present⟩)
      | inst hinst => cases hinst
    exact fun h => inner h (kept (first.met List.mem_cons_self))

/-- Components are met step by step. -/
theorem reaches_iff : t.Reaches ty c ↔ Relation.ReflTransGen
    (fun ty c => c ∈ t.children ty) ty c := by
  constructor
  · intro h
    induction h with
    | refl => exact .refl
    | child mem _ ih => exact .head mem ih
    | inst hv => cases hv
  · intro h
    induction h using Relation.ReflTransGen.head_induction_on with
    | refl => exact .refl c
    | head mem _ ih => exact .child mem ih

end SymbolTable

/-! ## The search -/

namespace Search

variable {p : Ty → Bool} {rest : List Ty} {root : Ty} {visited : KeySet Ty} {w w' : Search}

/-- A search from `root` that has not found `p`: what it looked at has components that it looked at
or that wait on the stack. -/
structure Explores (t : SymbolTable) (p : Ty → Bool) (root : Ty) (w : Search) : Prop where
  started : root ∈ w.visited.elems ∨ root ∈ w.stack
  only : ∀ c, c ∈ w.visited.elems ∨ c ∈ w.stack → t.Reaches root c
  failed : ∀ c ∈ w.visited.elems, p c = false
  closed : ∀ c ∈ w.visited.elems, ∀ c' ∈ t.children c, c' ∈ w.visited.elems ∨ c' ∈ w.stack

theorem Explores.start : Search.Explores t p root { stack := [root] } where
  started := .inr List.mem_cons_self
  only c h := by
    obtain rfl : c = root := by simpa [KeySet.elems_empty] using h
    exact .refl c
  failed c h := by simp [KeySet.elems_empty] at h
  closed c h := by simp [KeySet.elems_empty] at h

/-- What was looked at before is dropped from the stack. -/
theorem Explores.drop (h : Search.Explores t p root ⟨visited, ty :: rest⟩)
    (seen : ty ∈ visited.elems) : Search.Explores t p root ⟨visited, rest⟩ := by
  have kept : ∀ c, c ∈ visited.elems ∨ c ∈ ty :: rest → c ∈ visited.elems ∨ c ∈ rest := by
    rintro c (mem | mem)
    · exact .inl mem
    · obtain rfl | mem := List.mem_cons.1 mem
      · exact .inl seen
      · exact .inr mem
  exact {
    started := kept _ h.started
    only := fun c mem => h.only c (mem.imp_right (List.mem_cons_of_mem ty))
    failed := h.failed
    closed := fun c mem c' child => kept _ (h.closed c mem c' child) }

/-- What is looked at leaves its components on the stack. -/
theorem Explores.expand (h : Search.Explores t p root ⟨visited, ty :: rest⟩)
    (new : ty ∉ visited.elems) (fails : p ty = false) :
    Search.Explores t p root ⟨visited.insert ty, (t.children ty).reverse ++ rest⟩ := by
  have inserted : ∀ c, c ∈ (visited.insert ty).elems ↔ c = ty ∨ c ∈ visited.elems := by
    simp [KeySet.elems_insert, if_neg new]
  have pushed : ∀ c, c ∈ (t.children ty).reverse ++ rest ↔ c ∈ t.children ty ∨ c ∈ rest := by simp
  have kept : ∀ c, c ∈ visited.elems ∨ c ∈ ty :: rest →
      c ∈ (visited.insert ty).elems ∨ c ∈ (t.children ty).reverse ++ rest := by
    intro c mem
    rw [inserted, pushed]
    rw [List.mem_cons] at mem
    tauto
  have here := h.only ty (.inr List.mem_cons_self)
  refine ⟨kept _ h.started, fun c mem => ?_, fun c mem => ?_, fun c mem c' child => ?_⟩
  · rw [inserted, pushed] at mem
    obtain (rfl | old) | child | old := mem
    · exact here
    · exact h.only c (.inl old)
    · exact here.trans (.child child (.refl c))
    · exact h.only c (.inr (List.mem_cons_of_mem ty old))
  · obtain rfl | old := (inserted c).1 mem
    · exact fails
    · exact h.failed c old
  · obtain rfl | old := (inserted c).1 mem
    · exact .inr ((pushed c').2 (.inl child))
    · exact kept _ (h.closed c old c' child)

/-- Turns left at most: one for each type on the stack, and one for each component of what is not
yet looked at. -/
def cost (t : SymbolTable) (root : Ty) (w : Search) : Nat :=
  w.stack.length +
    ((t.reachable root).toFinset \ w.visited.elems.toFinset).sum fun c => (t.children c).length

theorem cost_expand (here : t.Reaches root ty) (new : ty ∉ visited.elems) :
    cost t root ⟨visited.insert ty, (t.children ty).reverse ++ rest⟩ + 1 =
      cost t root ⟨visited, ty :: rest⟩ := by
  have left : ty ∈ (t.reachable root).toFinset \ visited.elems.toFinset := by
    simpa [new] using SymbolTable.mem_reachable.2 here
  have split := Finset.add_sum_erase _ (fun c => (t.children c).length) left
  simp only [cost, KeySet.elems_insert, if_neg new, List.toFinset_cons,
    Finset.sdiff_insert, List.length_append, List.length_reverse, List.length_cons]
  omega

/-- A turn that gives no answer keeps what the search knows and leaves it fewer turns. -/
theorem Explores.turn (h : w.Explores t p root) (step : w.turn t p = .ok w') :
    w'.Explores t p root ∧ w'.cost t root < w.cost t root := by
  obtain ⟨visited, _ | ⟨ty, rest⟩⟩ := w
  · cases step
  by_cases seen : ty ∈ visited.elems
  · obtain rfl : (⟨visited, rest⟩ : Search) =
      w' := by simpa [Search.turn, KeySet.contains_iff, seen] using step
    exact ⟨h.drop seen, by simp [cost]⟩
  · have fails : p ty = false := by
      refine Bool.eq_false_iff.2 fun holds => ?_
      simp [Search.turn, KeySet.contains_iff, seen, holds] at step
    obtain rfl : (⟨visited.insert ty, (t.children ty).reverse ++ rest⟩ : Search) = w' := by
      simpa [Search.turn, KeySet.contains_iff, seen, fails] using step
    exact ⟨h.expand seen fails, by simp [← cost_expand (h.only ty (.inr List.mem_cons_self)) seen]⟩

/-- A turn answers with what was looked for, or when nothing is left. -/
theorem Explores.answer {b : Bool} (h : w.Explores t p root) (step : w.turn t p = .error b) :
    b = true ↔ ∃ c, t.Reaches root c ∧ p c = true := by
  obtain ⟨visited, _ | ⟨ty, rest⟩⟩ := w
  · obtain rfl : false = b := by simpa [Search.turn] using step
    have all : ∀ {c c'}, t.Reaches c c' → c ∈ visited.elems → c' ∈ visited.elems := by
      intro c c' reached mem
      induction reached with
      | refl => exact mem
      | child child _ ih => exact ih ((h.closed _ mem _ child).resolve_right List.not_mem_nil)
      | inst none => cases none
    simp only [Bool.false_eq_true, false_iff, not_exists, not_and, Bool.not_eq_true]
    exact fun c reached => h.failed c (all reached (h.started.resolve_right List.not_mem_nil))
  · by_cases seen : ty ∈ visited.elems
    · simp [Search.turn, KeySet.contains_iff, seen] at step
    · have holds : p ty = true := by
        by_contra fails
        simp [Search.turn, KeySet.contains_iff, seen, fails] at step
      obtain rfl : true = b := by simpa [Search.turn, KeySet.contains_iff, seen, holds] using step
      exact iff_of_true rfl ⟨ty, h.only ty (.inr List.mem_cons_self), holds⟩

/-- With turns enough a search answers, and rightly. -/
theorem Explores.run {n : Nat} (h : w.Explores t p root) (enough : w.cost t root < n) :
    ∃ answer, w.run t p n = some answer ∧ (answer = true ↔ ∃ c, t.Reaches root c ∧ p c = true) := by
  induction n generalizing w with
  | zero => omega
  | succ n ih =>
    rw [Search.run]
    cases step : w.turn t p with
    | error answer => exact ⟨answer, rfl, h.answer step⟩
    | ok w' =>
      have ⟨kept, fewer⟩ := h.turn step
      exact ih kept (by omega)

end Search

namespace SymbolTable

variable {p : Ty → Bool}

theorem run_turns (t : SymbolTable) (ty : Ty) (p : Ty → Bool) :
    Search.run t p (t.turns ty) { stack := [ty] } = some (t.existsType ty p) ∧
      (t.existsType ty p = true ↔ ∃ c, t.Reaches ty c ∧ p c = true) := by
  have enough : Search.cost t ty { stack := [ty] } < t.turns ty := by
    simp only [Search.cost, turns, reachable, List.length_flatMap,
      KeySet.elems_empty, List.toFinset_nil, Finset.sdiff_empty,
      List.sum_toFinset _ (KeySet.nodup _), List.length_singleton]
    omega
  obtain ⟨answer, run, right⟩ := Search.Explores.start.run (p := p) enough
  have same : t.existsType ty p = answer := by rw [existsType, run, Option.getD_some]
  rw [same]
  exact ⟨run, right⟩

theorem existsType_iff : t.existsType ty p = true ↔ ∃ c, t.Reaches ty c ∧ p c = true :=
    (t.run_turns ty p).2

theorem existsType_eq_false : t.existsType ty p = false ↔ ∀ c, t.Reaches ty c → p c = false := by
  rw [← Bool.not_eq_true, existsType_iff]
  simp

/-- Following components comes to an end, whatever the infos of bound symbols lead back to, and
answers whether a type that is met from `ty` by taking components, any number of times, has `p`. -/
theorem existsType_decides_reachability (t : SymbolTable) (ty : Ty) (p : Ty → Bool) :
    (∃ n, Search.run t p n { stack := [ty] } = some (t.existsType ty p)) ∧
      (t.existsType ty p = true ↔
        ∃ c, Relation.ReflTransGen (fun ty c => c ∈ t.children ty) ty c ∧ p c = true) := by
  simp only [existsType_iff, ← reaches_iff, and_true]
  exact ⟨t.turns ty, (t.run_turns ty p).1⟩

end SymbolTable

/-! ## Maps, part by part -/

theorem Ty.sizeOf_lt_of_part {c : Ty} (h : c ∈ ty.parts) : sizeOf c < sizeOf ty := by
  cases ty with
  | ref pre s args =>
    obtain rfl | mem := List.mem_cons.1 h
    · simp
      omega
    · have := List.sizeOf_lt_of_mem mem
      simp only [Ty.ref.sizeOf_spec]
      omega
  | refined parents decls cls =>
    have := List.sizeOf_lt_of_mem (show c ∈ parents from h)
    simp only [Ty.refined.sizeOf_spec]
    omega
  | _ => simp [parts] at h <;> (try obtain rfl | rfl := h) <;> simp <;> omega

mutual
/-- `p` holds of the type and of what stands in it, however deep. -/
def Ty.every (p : Ty → Bool) (ty : Ty) : Bool :=
  p ty && match ty with
    | .single c _ | .exist _ c | .annotated _ c | .boundedWildcard
      c | .method _ c _ | .nullary c | .poly _ c | .notNull c =>
      c.every p
    | .ref pre _ args => pre.every p && Ty.everyOf p args
    | .refined parents _ _ => Ty.everyOf p parents
    | .bounds lo hi => lo.every p && hi.every p
    | _ => true

def Ty.everyOf (p : Ty → Bool) : List Ty → Bool
  | [] => true
  | ty :: tys => ty.every p && Ty.everyOf p tys
end

theorem Ty.everyOf_iff {p : Ty → Bool} {tys : List Ty} :
    everyOf p tys = true ↔ ∀ ty ∈ tys, ty.every p = true := by
  induction tys with
  | nil => simp [everyOf]
  | cons ty tys ih => simp [everyOf, ih]

theorem Ty.every_iff {p : Ty → Bool} : ty.every p = true ↔
    p ty = true ∧ ∀ c ∈ ty.parts, c.every p = true := by
  cases ty <;> simp [every, parts, everyOf_iff]

/-- The type over other parts. -/
def Ty.withParts : Ty → List Ty → Ty
  | .single _ s, [pre] => .single pre s
  | .ref _ s _, pre :: args => .ref pre s args
  | .refined _ decls cls, parents => .refined parents decls cls
  | .exist qs _, [body] => .existential qs body
  | .annotated as _, [body] => .annotate as body
  | .boundedWildcard _, [b] => .boundedWildcard b
  | .bounds _ _, [lo, hi] => .bounds lo hi
  | .method ps _ flags, [r] => .method ps r flags
  | .nullary _, [r] => .nullary r
  | .poly ps _, [r] => .lambda ps r
  | .notNull _, [b] => .notNull b
  | ty, _ => ty

/-- A type that binds no symbol is mapped part by part. -/
theorem Rebinding.mapOver_eq (rb : Rebinding) (f : TypeMap)
    (h : ty.binders = []) : rb.mapOver f ty = do
      let cs ← ty.parts.mapM f
      return if cs = ty.parts then ty else ty.withParts cs := by
  cases ty with
  | refined parents decls cls =>
    obtain rfl : decls = [] := h
    exact bind_congr fun parents' => rfl
  | exist bs body | method bs body | poly bs body =>
    obtain rfl : bs = [] := h
    simp [mapOver, mapBinder, Ty.parts, Ty.withParts]
  | _ => simp [mapOver, Ty.parts, Ty.withParts]

end Conformance

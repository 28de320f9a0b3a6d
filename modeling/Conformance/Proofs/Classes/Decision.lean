import Conformance.Proofs.Classes.Acceptance
import Conformance.Proofs.Classes.Check

/-! # The checker decides conformance of class types -/

namespace Conformance

open SymbolTable SymM CheckM

variable {t : SymbolTable} {n : Nat} {l r : Ty}

/-- Where the search for base types is exhaustive. -/
def SymbolTable.Exhaustive (t : SymbolTable) (depth : Depth) : Prop :=
    t.OneInstantiation ∧ depth = .unlimited

/-- Queries for class types answer `true` only where conformance holds, and where the search is
exhaustive whenever it can be decided. -/
def Queries.Decide (t : SymbolTable) (n : Nat) (ok : Prop) (q : Queries) : Prop :=
  ∀ l r, t.ClassType l → t.ClassType r → ∀ depth,
    Decided t n ok (q.sub l r depth) (t.Conforms l r) (t.Exhaustive depth ∧ t.Decides l r)

namespace SymbolTable

theorem Accepts.conforms (ht : t.Plain) (h : t.Accepts l r)
    (hl : t.ClassType l) (hr : t.ClassType r) : t.Conforms l r := by
  induction h with
  | nothing => exact .nothing hl hr
  | null _ admits => exact .null hl hr admits
  | @base l pkg' d as bs plain nearest len co contra ihco ihcontra =>
    obtain ⟨pkg, c, args, rfl⟩ := hl.shape
    have package := hr.applied.package
    have closed : t.ClassType (.ref (.this pkg') d as) := nearest.base.classTerm ht hl package
    refine .trans (nearest.base.conforms ht hl package)
      (.args closed hr (fun i p a b hp ha hb hvar => ?_) fun i p a b hp ha hb hvar => ?_)
    · exact ihco i p a b hp ha hb hvar (closed.arg (List.mem_of_getElem? ha))
        (hr.arg (List.mem_of_getElem? hb))
    · exact ihcontra i p a b hp ha hb hvar (hr.arg (List.mem_of_getElem? hb))
        (closed.arg (List.mem_of_getElem? ha))
  | all => cases hr
  | any => cases hl

/-- Where each base class is reached at one instantiation, the first one that is found is the
one. -/
theorem Decides.accepts (ht : t.Plain) (one : t.OneInstantiation)
    (h : t.Decides l r) (hl : t.ClassType l) (hr : t.ClassType r) : t.Accepts l r := by
  induction h with
  | nothing =>
    obtain ⟨_, _, _, rfl⟩ := hr.shape
    exact .nothing
  | null admits => exact .null hr.isPlainClass admits
  | @base l pkg' d as bs base len co contra ihco ihcontra =>
    obtain ⟨pkg, c, args, rfl⟩ := hl.shape
    have closed : t.ClassType (.ref (.this pkg') d as) := base.classTerm ht hl hr.applied.package
    obtain ⟨as', nearest⟩ := ht.exists_nearest hl.applied (ht.within c) (base.derives ht hl)
    obtain rfl := one _ hl _ _ _ base nearest.base
    refine .base hr.isPlainClass nearest len (fun i p a b hp ha hb hvar => ?_)
      fun i p a b hp ha hb hvar => ?_
    · exact ihco i p a b hp ha hb hvar (closed.arg (List.mem_of_getElem? ha))
        (hr.arg (List.mem_of_getElem? hb))
    · exact ihcontra i p a b hp ha hb hvar (hr.arg (List.mem_of_getElem? hb))
        (closed.arg (List.mem_of_getElem? ha))

end SymbolTable

namespace Config

theorem queriesUpTo_decide (cfg : Config) (ht : t.Plain) (n : Nat) :
    (cfg.queriesUpTo n).Decide t n (Fueled t cfg.fuel) := by
  intro l r hl hr depth
  refine (cfg.queriesUpTo_accept ht n l r hl.joined hr.joined depth).imp
    (fun h => h.conforms ht hl hr) ?_
  rintro ⟨⟨one, unlimited⟩, decides⟩
  exact ⟨unlimited, decides.accepts ht one hl hr⟩

theorem isSubtypeDepth_decided (cfg : Config) (ht : t.Plain)
    (hl : t.ClassType l) (hr : t.ClassType r) (depth : Depth) :
    Decided t n (Fueled t cfg.fuel) (cfg.isSubtypeDepth l r depth) (t.Conforms l r)
      (t.Exhaustive depth ∧ t.Decides l r) :=
  withQueries_settles cfg fun n => cfg.queriesUpTo_decide ht n l r hl hr depth

/-- The checker answers `true` for class types only if they conform, whatever its policy and fuel.
With fuel for the declared parents it always answers; and where parents respect variances and reach
each base class at one instantiation, it answers `true` for all that conform, unless its guard
refused an entry. -/
theorem isSubtype_decides_conformance (ht : t.Plain) : ∃ bound,
    ∀ (cfg : Config) (s : CheckState) (l r : Ty), s.table = t → t.ClassType l → t.ClassType r →
      (∀ depth, (cfg.isSubtypeDepth l r depth).answer? s = some true → t.Conforms l r) ∧
      (bound ≤ cfg.fuel → ∃ b s', cfg.isSubtype l r s = .ok b s' ∧
        (t.RespectsVariance → t.OneInstantiation → t.Conforms l r → b = true ∨ Counted s s')) := by
  obtain ⟨bound, fueled⟩ := exists_fueled t
  refine ⟨bound, fun cfg s l r hs hl hr => ?_⟩
  subst hs
  refine ⟨fun depth answer => ?_, fun enough => ?_⟩
  · exact Settles.of_answer (fun _ => cfg.isSubtypeDepth_decided ht hl hr depth)
      ht.remembers answer rfl
  · obtain ⟨b, s', run, -, -, complete⟩ :=
      Settles.run (fun _ => cfg.isSubtypeDepth_decided ht hl hr .unlimited)
        ht.remembers (fueled cfg.fuel enough)
    refine ⟨b, s', run, fun hv one conforms => ?_⟩
    obtain counted | complete := complete
    · exact .inr counted
    · exact .inl (complete ⟨⟨one, rfl⟩, conforms.decides ht hv⟩)

/-- `Box[+A]`, `Cell[B] extends Box[B]` and `Sink[-C]`, with the identifiers 26, 28 and 30. -/
def shelf : SymbolTable := SymM.after (do
  let pkg ← newPackage Known.rootClass "shelf"
  let box ← newGeneric pkg "Box" "A" .covariant fun _ => [Known.anyRefType]
  let _cell ← newGeneric pkg "Cell" "B" .invariant fun b => [.ref (.this pkg) box [b]]
  newGeneric pkg "Sink" "C" .contravariant fun _ => [Known.anyRefType]) .initial

theorem shelf_listsPlain : shelf.ListsPlain := by decide +kernel

theorem shelf_respectsVariance : shelf.RespectsVariance := by
  have check : ∀ i ∈ List.range shelf.size, shelf.IsPlainClass ⟨i⟩ →
      ∀ g ∈ shelf.supers ⟨i⟩, shelf.isOccurring true g = true := by decide +kernel
  exact shelf_listsPlain.forall_plain fun i hi hc g hg =>
    occurs_of_check true g (check i hi hc g hg)

theorem shelf_oneInstantiation : shelf.OneInstantiation :=
  oneInstantiation_of_single shelf_listsPlain.plain
    (shelf_listsPlain.forall_plain (by decide +kernel))

/-- `Cell[String]` conforms to `Box[Object]`, through a parent and a covariant argument. -/
theorem cell_conforms_to_box :
    let cell : Ty := .ref (.this ⟨24⟩) ⟨28⟩ [Known.javaLangRef Known.string]
    let box : Ty := .ref (.this ⟨24⟩) ⟨26⟩ [Known.objectType]
    shelf.Plain ∧ shelf.RespectsVariance ∧ shelf.OneInstantiation ∧
    shelf.ClassType cell ∧ shelf.ClassType box ∧
      shelf.Conforms cell box ∧ ∃ bound, ∀ (cfg : Config) (s : CheckState), s.table = shelf →
        bound ≤ cfg.fuel → ∃ b s', cfg.isSubtype cell box s = .ok b s' ∧
        (b = true ∨ Counted s s') := by
  intro cell box
  have plain := shelf_listsPlain.plain
  have hcell : shelf.ClassType cell := classTerm_of_check _ cell (by decide +kernel)
  have hbox : shelf.ClassType box := classTerm_of_check _ box (by decide +kernel)
  obtain ⟨bound, decides⟩ := isSubtype_decides_conformance plain
  have conforms : shelf.Conforms cell box :=
    (decides ⟨{}, .typeConstraints, 8⟩ (.fresh {} shelf 0 #[]) cell box rfl hcell hbox).1
      .unlimited (by decide +kernel)
  refine ⟨plain, shelf_respectsVariance, shelf_oneInstantiation, hcell, hbox, conforms, bound, ?_⟩
  intro cfg s hs enough
  obtain ⟨b, s', run, complete⟩ := (decides cfg s cell box hs hcell hbox).2 enough
  exact ⟨b, s', run, complete shelf_respectsVariance shelf_oneInstantiation conforms⟩

end Config

end Conformance

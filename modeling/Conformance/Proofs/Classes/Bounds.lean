import Conformance.Proofs.Classes.Existentials

/-! # The checker confirms the bounds it finds

Where conformance of class types is an order with a top, queries confirm that a least upper bound is
above the types it was found for, and a greatest lower bound below them. Fuel is needed in
proportion to the types: arguments of base types grow with the declared parents, by one factor for
each class on the way up and each level of arguments. -/

namespace Conformance

open SymbolTable SymM CheckM

variable {t : SymbolTable} {ps : List SymbolId} {pkg c d : SymbolId}
  {as bs : List Ty} {ty : Ty} {k m : Nat}

/-! ## Growth of arguments -/

theorem sizeOf_map_le {f : Ty → Ty} (pos : 0 < k) (h : ∀ a ∈ as, sizeOf (f a) ≤ sizeOf a * k) :
    sizeOf (as.map f) ≤ sizeOf as * k := by
  induction as with
  | nil => simpa [Nat.succ_le_iff] using pos
  | cons a as ih =>
    rw [List.forall_mem_cons] at h
    have rest := ih h.2
    simp only [List.map_cons, List.cons.sizeOf_spec, Nat.add_mul, Nat.one_mul]
    omega

/-- A term grows by a factor at most when parameters are replaced. -/
theorem SymbolTable.ClassTerm.sizeOf_inst_le (term : t.ClassTerm ps ty)
    (arity : as.length = ps.length) (pos : 0 < k) (small : ∀ a ∈ as, sizeOf a ≤ k) :
    sizeOf (ty.inst ps as) ≤ sizeOf ty * k := by
  induction term with
  | param mem =>
    obtain ⟨a, ha, -⟩ := exists_arg mem arity
    rw [Ty.inst_param ha mem]
    exact (small a (List.mem_of_getElem? ha)).trans (Nat.le_mul_of_pos_left k (by simp))
  | @app pkg c _ _ _ _ _ ih =>
    have args := sizeOf_map_le pos ih
    have outer := Nat.le_mul_of_pos_right (sizeOf (Ty.this pkg)) pos
    have name := Nat.le_mul_of_pos_right (sizeOf c) pos
    rw [Ty.inst_app]
    simp only [Ty.ref.sizeOf_spec, Nat.add_mul, Nat.one_mul]
    omega

/-- A bound on the size of declared parents. -/
structure SymbolTable.ParentsWithin (t : SymbolTable) (m : Nat) : Prop where
  pos : 0 < m
  small : ∀ c, t.IsPlainClass c → ∀ g ∈ t.supers c, sizeOf g ≤ m

theorem SymbolTable.exists_parentsWithin (t : SymbolTable) : ∃ m, t.ParentsWithin m := by
  refine ⟨sizeOf Known.objectType + sizeOf (SymbolRecord.absent :: t.records.toList),
    ?_, fun c _ g hg => ?_⟩
  · simp only [List.cons.sizeOf_spec]
    omega
  obtain ⟨p, hp, rfl⟩ := List.mem_map.1 hg
  have size := sizeOf_parent_lt t hp
  cases p with
  | ref pre s args =>
    rw [Ty.counted]
    split <;> omega
  | _ => exact (Nat.le_of_lt size).trans (Nat.le_add_left _ _)

theorem SymbolTable.Nearest.sizeOf_le (ht : t.Plain) (hm : t.ParentsWithin m)
    (hl : t.Applied pkg c as) (within : t.Within k c) (h : t.Nearest d (.ref (.this pkg) c as) bs) :
    sizeOf bs ≤ m ^ k * sizeOf (Ty.ref (.this pkg) c as) := by
  generalize eq : Ty.ref (.this pkg) c as = l at h
  induction h generalizing pkg c as k with
  | here =>
    cases eq
    refine Nat.le_trans ?_ (Nat.le_mul_of_pos_left _ (Nat.pow_pos hm.pos))
    simp
  | @up pkg c as _ _ _ plain first _ ih =>
    cases eq
    have parent := List.mem_of_find?_eq_some first
    obtain ⟨pkg', e, gs, rfl, step, term, applied⟩ := ht.super_applied hl parent
    cases k with
    | zero => exact absurd within (t.not_within_zero _)
    | succ k =>
      have grown := term.sizeOf_inst_le (k := sizeOf (Ty.ref (.this pkg) c as))
        hl.arity (by simp only [Ty.ref.sizeOf_spec]; omega) fun a ha => by
          have := List.sizeOf_lt_of_mem ha
          simp only [Ty.ref.sizeOf_spec]
          omega
      rw [Ty.inst_app] at ih grown
      calc sizeOf _ ≤ m ^ k * sizeOf (Ty.ref (.this pkg') e (gs.map (Ty.inst (t.tparams c) as))) :=
            ih applied (within.step step) rfl
        _ ≤ m ^ k * (m * sizeOf (Ty.ref (.this pkg) c as)) :=
            Nat.mul_le_mul_left _ (grown.trans (Nat.mul_le_mul_right _ (hm.small _ plain _ parent)))
        _ = m ^ (k + 1) * sizeOf (Ty.ref (.this pkg) c as) := by rw [Nat.pow_succ, Nat.mul_assoc]

theorem SymbolTable.ParentsWithin.fits (hm : t.ParentsWithin m) (ht : t.Plain) {fuel : Nat}
    (closed : t.ClassType ty) (enough : (m ^ 60) ^ k * sizeOf ty ≤ fuel) : t.Fits fuel k ty := by
  induction k generalizing ty with
  | zero => trivial
  | succ k ih =>
    intro d as nearest a ha
    obtain ⟨pkg, c, bs, rfl⟩ := closed.shape
    have row := nearest.sizeOf_le ht hm closed.applied (ht.within c)
    have cell := List.sizeOf_lt_of_mem ha
    have pos : 0 < (m ^ 60) ^ k := Nat.pow_pos (Nat.pow_pos hm.pos)
    have grown : (m ^ 60) ^ k * sizeOf a ≤ fuel :=
      calc (m ^ 60) ^ k * sizeOf a ≤ (m ^ 60) ^ k * (m ^ 60 * sizeOf (Ty.ref (.this pkg) c bs)) :=
            Nat.mul_le_mul_left _ ((Nat.le_of_lt cell).trans row)
        _ = (m ^ 60) ^ (k + 1) * sizeOf
          (Ty.ref (.this pkg) c bs) := by rw [Nat.pow_succ (n := m ^ 60), Nat.mul_assoc]
        _ ≤ fuel := enough
    refine ⟨(Nat.le_mul_of_pos_left _ pos).trans grown, ih ?_ grown⟩
    exact (nearest.applied ht ClassTerm.congruent closed.applied
      (fun _ => closed.arg) ht.javaLang).2 a ha

/-! ## Confirmation -/

namespace Config

/-- What a computation that asks queries finds, it finds with the queries that are left. -/
theorem withQueries_finds (cfg : Config) {α : Type}
    {ok : Prop} {f : Queries → CheckM α} {P : α → Prop}
    {s : CheckState} (h : ∀ n, Finds t n ok (f (cfg.queriesUpTo n)) P) (hs : t.Hosts s.table)
    (hok : ok) : ∃ a s', cfg.withQueries f s = .ok a s' ∧ t.Hosts s'.table ∧ P a := by
  obtain ⟨a, s', run, serves, ha, -⟩ := Settles.run (fun _ => withQueries_settles cfg h) hs hok
  exact ⟨a, s', run, serves.table, ha⟩

/-- Where class types are ordered with a top, and with fuel in proportion to the table and the
types, a least upper and a greatest lower bound of class types are found; queries confirm the
bounds, then and on every table that grows from this one, unless the guard refuses an entry to the
query itself. -/
theorem bounds_are_confirmed (ht : t.Rooted) (ho : t.Ordered)
    {types : List Ty} (closed : ∀ ty ∈ types, t.ClassType ty) :
    ∃ bound, ∀ (cfg : Config) (s : CheckState), bound ≤ cfg.fuel → t.Hosts s.table →
      (∃ u s', cfg.leastUpperBound types s = .ok u s' ∧
        t.Hosts s'.table ∧ ∀ ty ∈ types, cfg.Confirms t ty u) ∧
      ∃ u s', cfg.greatestLowerBound types s = .ok u s' ∧
        t.Hosts s'.table ∧ ∀ ty ∈ types, cfg.Confirms t u ty := by
  obtain ⟨bound, enough⟩ := exists_fueled t
  obtain ⟨m, hm⟩ := t.exists_parentsWithin
  refine ⟨bound + (m ^ 60) ^ Limits.lubDepth * sizeOf types, fun cfg s fuel hs => ?_⟩
  have fueled := enough cfg.fuel (by omega)
  have pos : 0 < (m ^ 60) ^ Limits.lubDepth := Nat.pow_pos (Nat.pow_pos hm.pos)
  have sized : ∀ ty ∈ types, (m ^ 60) ^ Limits.lubDepth * sizeOf ty ≤ cfg.fuel := fun ty hty =>
    (Nat.mul_le_mul_left _ (Nat.le_of_lt (List.sizeOf_lt_of_mem hty))).trans
      ((Nat.le_add_left _ _).trans fuel)
  have serve := fun n => cfg.queriesUpTo_serve ht (fun _ : True => fueled) n
  constructor
  · obtain ⟨u, s', run, hosts, bounds⟩ := cfg.withQueries_finds (f := fun q => lub cfg q types)
      (fun n => lubUpTo_finds ht (serve n) (fun _ => fueled) Limits.lubDepth closed
        fun _ ty hty => hm.fits ht.plain (closed ty hty) (sized ty hty)) hs trivial
    refine ⟨u, s', run, hosts, fun ty hty => confirms_of_accepts
      ht fueled (closed ty hty).joined bounds.joined ?_⟩
    exact bounds.above nofun ho ty hty ty (.refl (closed ty hty))
  · obtain ⟨u, s', run, hosts, bounds⟩ := cfg.withQueries_finds (f := fun q => glb cfg q types)
      (fun n => glb_finds ht (serve n) closed fun _ ty hty =>
      (Nat.le_mul_of_pos_left _ pos).trans (sized ty hty)) hs trivial
    refine ⟨u, s', run, hosts, fun ty hty => confirms_of_accepts
      ht fueled bounds.joined (closed ty hty).joined ?_⟩
    exact bounds.below nofun ho ty hty ty (.refl (closed ty hty))

/-- `lending` is ordered: its classes have one parent at most, and the search for `Any` succeeds
from each. -/
theorem lending_ordered : lending.Ordered := by
  have listed : lending.ListsPlain := by decide +kernel
  have occurring : ∀ i ∈ List.range lending.size, lending.IsPlainClass ⟨i⟩ →
      ∀ g ∈ lending.supers ⟨i⟩, lending.isOccurring true g = true := by decide +kernel
  have topped : ∀ i ∈ List.range lending.size, lending.IsPlainClass ⟨i⟩ →
      (match isNonBottomSubClass ⟨i⟩ Known.any lending with
        | .ok b _ => b
        | .error .. => false) = true := by decide +kernel
  refine ⟨listed.forall_plain fun i hi hc g hg => occurs_of_check true g (occurring i hi hc g hg),
    oneInstantiation_of_single listed.plain (listed.forall_plain (by decide +kernel)),
    listed.forall_plain fun i hi hc => ?_⟩
  have found := topped i hi hc
  have sub := isNonBottomSubClass_yields listed.plain hc Known.any lending listed.plain.remembers
  split at found
  · next run =>
    rw [run] at sub
    exact sub.2.1 found
  · cases found

/-- `Sink[String]` and `Sink[Cell[String]]`: their least upper bound is `Sink[String &
Cell[String]]`. -/
theorem sinks_are_bounded :
    let string := Known.javaLangRef Known.string
    let sinks : List Ty := [string, .ref (.this ⟨24⟩) ⟨28⟩ [string]].map fun ty =>
      .ref (.this ⟨24⟩) ⟨30⟩ [ty]
    lending.Rooted ∧ lending.Ordered ∧ (∀ ty ∈ sinks, lending.ClassType ty) ∧
    ∃ bound, ∀ (cfg : Config) (s : CheckState),
      bound ≤ cfg.fuel → lending.Hosts s.table → (∃ u s', cfg.leastUpperBound sinks s = .ok u s' ∧
        lending.Hosts s'.table ∧ ∀ ty ∈ sinks, cfg.Confirms lending ty u) ∧
        ∃ u s', cfg.greatestLowerBound sinks s = .ok u s' ∧ lending.Hosts s'.table ∧
          ∀ ty ∈ sinks, cfg.Confirms lending u ty := by
  intro string sinks
  have checked : ∀ ty ∈ sinks, lending.isClassTerm [] ty = true := by decide +kernel
  have closed : ∀ ty ∈ sinks, lending.ClassType ty :=
    fun ty hty => classTerm_of_check _ ty (checked ty hty)
  exact ⟨lending_rooted, lending_ordered, closed, bounds_are_confirmed
    lending_rooted lending_ordered closed⟩

end Config

end Conformance

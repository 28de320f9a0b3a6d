import Conformance.Proofs.Classes.Check
import Conformance.Proofs.Paths.Subtyping

/-! # Equivalence and conformance

Types that the checker finds equivalent conform to each other both ways, except where they ask for a
pair that stands apart: a constant and a path to it, or a module and its class where the module is
declared otherwise. -/

namespace Conformance

open SymbolTable SymM CheckM

/-! ## Checking a table with paths -/

namespace SymbolTable

variable (t : SymbolTable)

instance : DecidablePred t.IsRigid := fun ty =>
  match ty with
  | .single _ s => inferInstanceAs (Decidable ((t.flags s).has .package = true))
  | .var _ | .refined .. => isFalse id
  | .noType | .noPrefix | .error | .wildcard | .dangling
    _ | .this _ | .const _ | .ref .. | .exist .. | .annotated ..
  | .boundedWildcard _ | .bounds .. | .method .. | .nullary _ | .poly .. | .notNull _ =>
    isTrue trivial

/-- A path of the table, or a constant. -/
def isGroundPath : Ty → Bool
  | .this c => (t.get c).isClass && !(t.get c).isRefinementClass
  | .single pre x => decide (t.IsRigid pre) && decide (t.IsPackage (t.owner x))
  | .const _ => true
  | _ => false

theorem ground_of_check {ty : Ty} (h : t.isGroundPath ty = true) : t.Ground ty := by
  cases ty with
  | this c =>
    simp only [isGroundPath, Bool.and_eq_true, Bool.not_eq_true'] at h
    exact .this h.1 h.2
  | single pre x =>
    simp only [isGroundPath, Bool.and_eq_true, decide_eq_true_eq] at h
    exact .single h.1 h.2
  | const v => exact .const v
  | _ => cases h

/-- The conditions on a table with paths, over its symbols. -/
structure ListsGrounded : Prop where
  plain : t.ListsPlain
  aliases : ∀ i ∈ List.range t.size, (t.get ⟨i⟩).isAliasType = true → i = Known.anyRef.val
  declared : ∀ i ∈ List.range t.size, (t.declared ⟨i⟩).isSingleton = true →
    t.isGroundPath (t.declared ⟨i⟩) = true
  absent : 0 < t.size
  known : ∀ c ∈ [Known.unit, Known.null, Known.boolean, Known.char, Known.int, Known.long,
      Known.double, Known.string],
    t.IsPlainClass c ∧ t.tparams c = []
  nothing_tparams : t.tparams Known.nothing = []

instance : Decidable t.ListsGrounded :=
  decidable_of_iff (_ ∧ _ ∧ _ ∧ _ ∧ _ ∧ _) ⟨fun ⟨h1, h2, h3, h4, h5, h6⟩ => ⟨h1, h2, h3,
    h4, h5, h6⟩, fun h => ⟨h.plain, h.aliases, h.declared, h.absent, h.known, h.nothing_tparams⟩⟩

variable {t}

theorem ListsGrounded.grounded (h : t.ListsGrounded) : t.Grounded where
  plain := h.plain.plain
  aliases s isAlias := by
    by_cases known : s.val < t.size
    · have eq := h.aliases s.val (List.mem_range.2 known) isAlias
      cases s
      cases eq
      rfl
    · rw [get_of_size_le (Nat.not_lt.1 known)] at isAlias
      cases h.aliases 0 (List.mem_range.2 h.absent) isAlias
  declared x _ isSingleton := by
    by_cases known : x.val < t.size
    · exact t.ground_of_check (h.declared x.val (List.mem_range.2 known) isSingleton)
    · have unknown : t.declared x = t.declared .none := by
        unfold SymbolTable.declared info
        rw [get_of_size_le (Nat.not_lt.1 known)]
      rw [unknown] at isSingleton ⊢
      exact t.ground_of_check (h.declared 0 (List.mem_range.2 h.absent) isSingleton)
  constants v := h.known _ (by cases v <;> simp [Known.constantClass])
  nothing_tparams := h.nothing_tparams

end SymbolTable

/-! ## Agreement -/

namespace Config

variable {t : SymbolTable} {n : Nat} {a b l r : Ty}

/-- A query runs its rule with a level less; where none is left it does not run it. -/
theorem isSubtype_run (cfg : Config) (l r : Ty) (s : CheckState) :
      cfg.isSubtype l r s = reported .subtype none (guarded (·.enter (l, r))
      (subStep cfg (cfg.queriesUpTo (levelsLeft s - 1)) l r .unlimited)) s := by
  show (cfg.queriesUpTo (levelsLeft s)).sub l r .unlimited s = _
  cases levels : levelsLeft s with
  | succ m => rfl
  | zero =>
    have refused : (s.guard.enter (l, r)).1 = .tooDeep := by
      have full : s.guard.maxDepth ≤ s.guard.depth := Nat.sub_eq_zero_iff_le.1 levels
      rw [Guard.enter, if_pos full]
    show reported .subtype none (guarded (·.enter (l, r)) (pure false)) s = _
    rw [query_run, query_run, refused]

/-- Where equivalence of two types holds, conformance holds both ways, unless the guard refused an
entry or the types ask for a constant in place of a path to it; then the answer is `false`. A path
conforms to what its declared type conforms to, and so does a module to its class. -/
theorem isSubtype_of_isSameType (cfg : Config) {s : CheckState}
    (ht : t.Grounded) (fueled : 0 < cfg.fuel) (hs : s.table = t) (ha : t.Ground a) (hb : t.Ground b)
    (same : (cfg.isSameType a b).answer? s = some true) (pair : l = a ∧ r = b ∨ l = b ∧ r = a) :
    (¬ t.Demands t.Redeclared l r → ∃ answer s', cfg.isSubtype l r s = .ok answer s' ∧
      (answer = true → ¬ t.Demands t.Literal l r) ∧
        (¬ t.Demands t.Literal l r → answer = true ∨ Counted s s')) ∧
    (∀ pre x, l = .single pre x → r.isSingletonRef = false →
      cfg.isSubtype l r s = reported .subtype none (guarded (·.enter (l, r))
        (if t.declared x = l then pure false else
          (cfg.queriesUpTo (levelsLeft s - 1)).sub (t.declared x) r .unlimited)) s) := by
  subst hs
  have remembers := ht.plain.remembers
  have equated := Settles.of_answer (fun _ => withQueries_settles cfg
    (f := fun q => q.same a b) fun n => cfg.queriesUpTo_equate ht n a b ha hb) remembers same rfl
  obtain ⟨hl, hr, equated⟩ : s.table.Ground l ∧ s.table.Ground r ∧ s.table.Equated l r := by
    obtain ⟨rfl, rfl⟩ | ⟨rfl, rfl⟩ := pair
    · exact ⟨ha, hb, equated⟩
    · exact ⟨hb, ha, equated.symm⟩
  refine ⟨fun declared => ?_, fun pre x eq notPath => ?_⟩
  · obtain ⟨answer, s', run, -, sound, complete⟩ :=
      Settles.run (fun _ => withQueries_settles cfg (f := fun q => q.sub l r .unlimited) fun n =>
      (cfg.queriesUpTo_relate ht fueled n).equated l r hl hr equated declared) remembers fueled
    exact ⟨answer, s', run, sound, fun free => complete.symm.imp_left (· free)⟩
  · subst eq
    rw [isSubtype_run]
    exact query_congr fun s' hs' => subStep_single_run (hs' ▸ remembers) fueled hl hr notPath

/-- `Box[+A]`, the values `x : 7` and `y : x.type`, and a module that is declared an `Int`, with the
identifiers 26, 28, 29 and 31; the class of the module is 30. -/
def labels : SymbolTable := SymM.after (do
  let pkg ← newPackage Known.rootClass "labels"
  let _box ← newGeneric pkg "Box" "A" .covariant fun _ => [Known.anyRefType]
  let x ← newValue pkg "x" (.single .stable)
  setInfo x (.const (.int 7))
  let y ← newValue pkg "y" (.single .stable)
  setInfo y (.single (.this pkg) x)
  let m ← newModule pkg "M"
  setInfo m (Known.scalaRef Known.int)) .initial

def labelsState : CheckState := .fresh {} labels 0 #[]

def labelled (id : Nat) : Ty := .single (.this ⟨24⟩) ⟨id⟩

def boxOf (ty : Ty) : Ty := .ref (.this ⟨24⟩) ⟨26⟩ [ty]

theorem labelsState_table : labelsState.table = labels := by rw [labelsState, CheckState.fresh]

theorem labels_grounded : labels.Grounded := ListsGrounded.grounded (by decide +kernel)

theorem box_tparams : labels.tparams ⟨26⟩ = [⟨27⟩] := by decide +kernel

theorem ground_boxOf {ty : Ty} (h : labels.Ground ty) : labels.Ground (boxOf ty) := by
  refine .ref trivial (IsPlainClass.static (by decide +kernel))
    (by rw [box_tparams]; rfl) fun a ha => ?_
  rwa [List.mem_singleton.1 ha]

/-- The parameter of `Box` is covariant. -/
theorem not_demands_boxOf {R : Ty → Ty → Prop} (here : ¬ R (boxOf a) (boxOf b)) :
    ¬ labels.Demands R (boxOf a) (boxOf b) ↔ ¬ labels.Demands R a b := by
  have covariant : (labels.get ⟨27⟩).variance = .covariant := by decide +kernel
  have args : labels.Pointwise (fun a b => ¬ labels.Demands R a b)
    [⟨27⟩] [a] [b] ↔ ¬ labels.Demands R a b := by
    simp [pointwise_cons, pointwise_nil, covariant]
  have boxes : labels.Pointwise (fun a b => ¬ labels.Demands R a b) (labels.tparams ⟨26⟩) [a] [b] ↔
      ¬ labels.Demands R (boxOf a) (boxOf b) := pointwise_not_demands (by simp) here
  rw [← args, ← boxes, box_tparams]

/-- `Box[y.type] =:= Box[7]`. The one conforms to the other, and not the other to the one. -/
theorem box_of_path_conforms_to_box_of_literal :
    let cfg : Config := ⟨{}, .typeConstraints, 8⟩
    let path := boxOf (labelled 29)
    let literal := boxOf (.const (.int 7))
    labels.Grounded ∧ labels.Ground path ∧ labels.Ground literal ∧
      (cfg.isSameType path literal).answer? labelsState = some true ∧
      (∃ answer s', cfg.isSubtype path literal labelsState = .ok answer s' ∧
        (answer = true ∨ Counted labelsState s')) ∧
      ∃ s', cfg.isSubtype literal path labelsState = .ok false s' := by
  intro cfg path literal
  have hpath : labels.Ground path := ground_boxOf (labels.ground_of_check (by decide +kernel))
  have hliteral : labels.Ground literal := ground_boxOf (.const _)
  have same : (cfg.isSameType path literal).answer? labelsState = some true := by decide +kernel
  have fueled : 0 < cfg.fuel := by decide
  refine ⟨labels_grounded, hpath, hliteral, same, ?_, ?_⟩
  · have modules : ¬ labels.Demands labels.Redeclared path literal := by
      refine (not_demands_boxOf id).2 ?_
      rw [demands_iff_here (.inl rfl)]
      exact id
    have literals : ¬ labels.Demands labels.Literal path literal := by
      refine (not_demands_boxOf id).2 ?_
      rw [demands_iff_here (.inl rfl)]
      exact id
    obtain ⟨answer, s', run, -, complete⟩ :=
      (isSubtype_of_isSameType cfg labels_grounded
        fueled labelsState_table hpath hliteral same (.inl ⟨rfl, rfl⟩)).1 modules
    exact ⟨answer, s', run, complete literals⟩
  · have modules : ¬ labels.Demands labels.Redeclared literal path := by
      refine (not_demands_boxOf id).2 ?_
      rw [demands_iff_here (.inl rfl)]
      exact id
    have first : labels.next? (labelled 29) = some (labelled 28) := by decide +kernel
    have second : labels.next? (labelled 28) = some (.const (.int 7)) := by decide +kernel
    have apart : labels.Literal (.const (.int 7)) (labelled 29) :=
      ⟨2, .step first (.step second (.refl _)), .inl (by decide)⟩
    obtain ⟨answer, s', run, sound, -⟩ :=
      (isSubtype_of_isSameType cfg labels_grounded
        fueled labelsState_table hpath hliteral same (.inr ⟨rfl, rfl⟩)).1 modules
    cases answer with
    | true => exact absurd (.here apart) ((not_demands_boxOf id).1 (sound rfl))
    | false => exact ⟨s', run⟩

/-- `7 =:= x.type` and not `7 <: x.type`; `M.type` is equivalent to the class of `M` and does not
conform to it. The guard refused nothing. -/
theorem equivalence_without_conformance :
    let cfg : Config := ⟨{}, .typeConstraints, 8⟩
    ∀ pair ∈ [((.const (.int 7), labelled 28) : Ty × Ty), (labelled 31, .ref (.this ⟨24⟩) ⟨30⟩ [])],
      (cfg.isSameType pair.1 pair.2).answer? labelsState = some true ∧
      (cfg.isSubtype pair.1 pair.2).answer? labelsState = some false ∧
      ¬ Counted labelsState ((cfg.isSubtype pair.1 pair.2).after labelsState) := by
  decide +kernel

end Config

end Conformance

import Mathlib.Data.List.Basic
import Mathlib.Logic.Function.Basic
import Conformance.Proofs.Scope.Basic

/-! # Symbols and variables under other names

Two runs may know the same symbols and variables by different names. A relabeling says how the
second run calls what the first one names. It confuses nothing, and the symbols that every table
starts with keep their names. -/

namespace Conformance

/-- Values that name symbols and variables. -/
class Movable (α : Type) where
  relabel : (SymbolId → SymbolId) → (VarId → VarId) → α → α
  relabel_id (a : α) : relabel id id a = a
  relabel_relabel (f f' : SymbolId → SymbolId) (h h' : VarId → VarId) (a : α) :
    relabel f h (relabel f' h' a) = relabel (f ∘ f') (h ∘ h') a

namespace Ty

mutual
/-- The type with every symbol and every variable replaced, binders and bound ones included. -/
def relabel (f : SymbolId → SymbolId) (h : VarId → VarId) : Ty → Ty
  | .noType => .noType
  | .noPrefix => .noPrefix
  | .error => .error
  | .wildcard => .wildcard
  | .dangling key => .dangling key
  | .this s => .this (f s)
  | .single pre s => .single (pre.relabel f h) (f s)
  | .const value => .const value
  | .ref pre s args => .ref (pre.relabel f h) (f s) (relabelAll f h args)
  | .refined parents decls cls => .refined (relabelAll f h parents) (decls.map f) (f cls)
  | .exist quantified body => .exist (quantified.map f) (body.relabel f h)
  | .annotated annotations body => .annotated (annotations.map f) (body.relabel f h)
  | .boundedWildcard b => .boundedWildcard (b.relabel f h)
  | .bounds lo hi => .bounds (lo.relabel f h) (hi.relabel f h)
  | .method params result flags => .method (params.map f) (result.relabel f h) flags
  | .nullary result => .nullary (result.relabel f h)
  | .poly tparams result => .poly (tparams.map f) (result.relabel f h)
  | .var v => .var (h v)
  | .notNull body => .notNull (body.relabel f h)

def relabelAll (f : SymbolId → SymbolId) (h : VarId → VarId) : List Ty → List Ty
  | [] => []
  | ty :: tys => ty.relabel f h :: relabelAll f h tys
end

variable (f f' : SymbolId → SymbolId) (h h' : VarId → VarId)

theorem relabelAll_eq_map (tys : List Ty) : relabelAll f h tys = tys.map (relabel f h) := by
  induction tys with
  | nil => rfl
  | cons ty tys ih => rw [relabelAll, ih, List.map_cons]

mutual
theorem relabel_relabel : ∀ ty : Ty, (ty.relabel f' h').relabel f h = ty.relabel (f ∘ f') (h ∘ h')
  | .noType | .noPrefix | .error | .wildcard | .dangling _ | .this _ | .const _ | .var _ => rfl
  | .single pre _ => by simp [relabel, relabel_relabel pre]
  | .ref pre _ args => by simp [relabel, relabel_relabel pre, relabelAll_relabelAll args]
  | .refined parents _ _ => by simp [relabel, relabelAll_relabelAll parents]
  | .exist _ body | .annotated _ body | .boundedWildcard
    body | .method _ body _ | .nullary body | .poly _ body
  | .notNull body => by simp [relabel, relabel_relabel body]
  | .bounds lo hi => by simp [relabel, relabel_relabel lo, relabel_relabel hi]

theorem relabelAll_relabelAll : ∀ tys, relabelAll f h (relabelAll f' h' tys) = relabelAll (f ∘ f')
    (h ∘ h') tys
  | [] => rfl
  | ty :: tys => by simp [relabelAll, relabel_relabel ty, relabelAll_relabelAll tys]
end

/-- What keeps the symbols and variables of a type keeps the type. -/
theorem relabel_of_over {S : SymbolId → Prop} {V : VarId → Prop}
    {f : SymbolId → SymbolId} {h : VarId → VarId} (hf : ∀ s, S s → f s = s)
    (hh : ∀ v, V v → h v = v) {ty : Ty} (covered : ty.Over S V) : ty.relabel f h = ty := by
  have kept : ∀ {ss : List SymbolId}, (∀ s ∈ ss, S s) → ss.map f = ss := fun hss =>
    (List.map_congr_left fun s hs => hf s (hss s hs)).trans (List.map_id' _)
  have all : ∀ {tys : List Ty}, (∀ ty ∈ tys, ty.relabel f h = ty) → relabelAll f h tys = tys :=
    fun htys =>
    (relabelAll_eq_map f h _).trans ((List.map_congr_left htys).trans (List.map_id' _))
  induction covered with
  | noType | noPrefix | error | wildcard | dangling | const => rfl
  | var hv => rw [relabel, hh _ hv]
  | this hs => rw [relabel, hf _ hs]
  | single _ hs ih => rw [relabel, ih, hf _ hs]
  | ref _ hs _ ih ihs => rw [relabel, ih, hf _ hs, all ihs]
  | refined _ hdecls hcls ihs => rw [relabel, all ihs, kept hdecls, hf _ hcls]
  | exist hss _ ih | annotated hss _ ih | method hss _ ih | poly hss _ ih =>
    rw [relabel, kept hss, ih]
  | boundedWildcard _ ih | nullary _ ih | notNull _ ih => rw [relabel, ih]
  | bounds _ _ ihlo ihhi => rw [relabel, ihlo, ihhi]

end Ty

section Instances

variable {α β : Type} [Movable α] [Movable β]

instance : Movable SymbolId := ⟨fun f _ s => f s, fun _ => rfl, fun _ _ _ _ _ => rfl⟩

instance : Movable VarId := ⟨fun _ h v => h v, fun _ => rfl, fun _ _ _ _ _ => rfl⟩

instance : Movable Ty where
  relabel f h ty := ty.relabel f h
  relabel_id ty := Ty.relabel_of_over (fun _ _ => rfl) (fun _ _ => rfl)
    (ty.over_all (S := fun _ => True) (V := fun _ => True) (fun _ => trivial) fun _ => trivial)
  relabel_relabel f f' h h' := Ty.relabel_relabel f f' h h'

instance : Movable Bool := ⟨fun _ _ b => b, fun _ => rfl, fun _ _ _ _ _ => rfl⟩

instance : Movable Unit := ⟨fun _ _ u => u, fun _ => rfl, fun _ _ _ _ _ => rfl⟩

instance : Movable (List α) where
  relabel f h as := as.map (Movable.relabel f h)
  relabel_id as := (List.map_congr_left fun a _ => Movable.relabel_id a).trans (List.map_id' as)
  relabel_relabel f f' h h' as := by simp [Function.comp_def, Movable.relabel_relabel]

instance : Movable (Option α) where
  relabel f h a := a.map (Movable.relabel f h)
  relabel_id a := by cases a <;> simp [Movable.relabel_id]
  relabel_relabel f f' h h' a := by cases a <;> simp [Movable.relabel_relabel]

instance : Movable (α × β) where
  relabel f h p := (Movable.relabel f h p.1, Movable.relabel f h p.2)
  relabel_id p := by simp [Movable.relabel_id]
  relabel_relabel f f' h h' p := by simp [Movable.relabel_relabel]

instance : Movable SymbolRecord where
  relabel f h r :=
    { r with
      id := f r.id
      owner := f r.owner
      tparams := r.tparams.map f
      info := r.info.relabel f h
      parents := Movable.relabel f h r.parents
      decls := r.decls.map f
      companion := f r.companion }
  relabel_id r := by
    have info : r.info.relabel id id = r.info := Movable.relabel_id r.info
    simp [info, Movable.relabel_id]
  relabel_relabel f f' h h' r := by simp [Ty.relabel_relabel, Movable.relabel_relabel]

end Instances

/-! ## Relabelings -/

/-- Names that a second run uses for the symbols and variables of a first one. -/
structure Relabeling where
  sym : SymbolId → SymbolId
  var : VarId → VarId
  sym_injective : Function.Injective sym
  var_injective : Function.Injective var
  known {s : SymbolId} : s.val < Known.count → sym s = s

namespace Relabeling

/-- Both runs use the same names. -/
def same : Relabeling := ⟨id, id, fun _ _ h => h, fun _ _ h => h, fun _ => rfl⟩

/-- The value under the names of the second run. -/
def move (ρ : Relabeling) {α : Type} [Movable α] (a : α) : α := Movable.relabel ρ.sym ρ.var a

@[simp] theorem same_move {α : Type} [Movable α] (a : α) : same.move a = a := Movable.relabel_id a

theorem move_injective (ρ : Relabeling) {α : Type}
    [Movable α] : Function.Injective (ρ.move : α → α) := by
  have symbols : Function.invFun ρ.sym ∘ ρ.sym = id := Function.invFun_comp ρ.sym_injective
  have unknowns : Function.invFun ρ.var ∘ ρ.var = id := Function.invFun_comp ρ.var_injective
  have inverse : ∀ a : α, Movable.relabel (Function.invFun ρ.sym)
    (Function.invFun ρ.var) (ρ.move a) = a := fun a => by
    rw [move, Movable.relabel_relabel, symbols, unknowns, Movable.relabel_id]
  exact Function.LeftInverse.injective inverse

section Values

variable {α β : Type} [Movable α] [Movable β] {ρ : Relabeling}

@[simp] theorem move_inj {a b : α} : ρ.move a = ρ.move b ↔ a = b := ρ.move_injective.eq_iff

@[simp] theorem move_beq [BEq α] [LawfulBEq α] (a b : α) : (ρ.move a == ρ.move b) = (a == b) := by
  rw [Bool.eq_iff_iff]
  simp

@[simp] theorem move_bne [BEq α] [LawfulBEq α] (a b : α) : (ρ.move a != ρ.move b) = (a != b) := by
  rw [bne, bne, move_beq]

@[simp] theorem move_bool (b : Bool) : ρ.move b = b := rfl
@[simp] theorem move_unit (u : Unit) : ρ.move u = u := rfl
@[simp] theorem move_none : ρ.move (none : Option α) = none := rfl
@[simp] theorem move_some (a : α) : ρ.move (some a) = some (ρ.move a) := rfl

@[simp] theorem isSome_move (a : Option α) : (ρ.move a).isSome = a.isSome := by
  cases a <;> rfl

@[simp] theorem move_pair (a : α) (b : β) : ρ.move (a, b) = (ρ.move a, ρ.move b) := rfl
@[simp] theorem fst_move (p : α × β) : (ρ.move p).1 = ρ.move p.1 := rfl
@[simp] theorem snd_move (p : α × β) : (ρ.move p).2 = ρ.move p.2 := rfl

/-! ## Lists -/

@[simp] theorem move_nil : ρ.move ([] : List α) = [] := rfl
@[simp] theorem move_cons (a : α) (as : List α) : ρ.move (a :: as) = ρ.move a :: ρ.move as := rfl
theorem move_list (as : List α) : ρ.move as = as.map ρ.move := rfl

@[simp] theorem move_append (as bs : List α) : ρ.move (as ++ bs) = ρ.move as ++ ρ.move bs :=
    List.map_append

@[simp] theorem length_move (as : List α) : (ρ.move as).length = as.length := List.length_map _

@[simp] theorem isEmpty_move (as : List α) : (ρ.move as).isEmpty = as.isEmpty := List.isEmpty_map

@[simp] theorem mem_move {a : α} {as : List α} : ρ.move a ∈ ρ.move as ↔ a ∈ as :=
  List.mem_map_of_injective ρ.move_injective

@[simp] theorem contains_move [BEq α] [LawfulBEq α] (as : List α) (a : α) :
    (ρ.move as).contains (ρ.move a) = as.contains a := by
  rw [Bool.eq_iff_iff]
  simp

theorem move_map {f : α → β} {f' : α → β} (h : ∀ a, f' (ρ.move a) = ρ.move (f a)) (as : List α) :
    (ρ.move as).map f' = ρ.move (as.map f) := by
  rw [move_list, move_list, List.map_map, List.map_map]
  exact List.map_congr_left fun a _ => h a

theorem move_filter {p p' : α → Bool} (h : ∀ a, p' (ρ.move a) = p a) (as : List α) :
    (ρ.move as).filter p' = ρ.move (as.filter p) := by
  have same : p' ∘ ρ.move = p := funext h
  rw [move_list, List.filter_map, same]
  rfl

@[simp] theorem head?_move (as : List α) : (ρ.move as).head? = ρ.move as.head? := List.head?_map

@[simp] theorem tail_move (as : List α) : (ρ.move as).tail = ρ.move as.tail := by
  cases as <;> rfl

@[simp] theorem getElem?_move (as : List α) (i : Nat) : (ρ.move as)[i]? = ρ.move as[i]? :=
    List.getElem?_map

@[simp] theorem zip_move (as : List α) (bs : List β) :
    (ρ.move as).zip (ρ.move bs) = ρ.move (as.zip bs) := List.zip_map

@[simp] theorem take_move (n : Nat) (as : List α) : (ρ.move as).take n = ρ.move (as.take n) :=
    List.map_take.symm

@[simp] theorem idxOf?_move [BEq α] [LawfulBEq α] (as : List α) (a : α) :
    (ρ.move as).idxOf? (ρ.move a) = as.idxOf? a := by
  have same : ((· == ρ.move a) ∘ ρ.move) = (· == a) := funext fun b => move_beq b a
  rw [List.idxOf?, move_list, List.findIdx?_map, same, List.idxOf?]

@[simp] theorem lookup_move [BEq α] [LawfulBEq α] (as : List (α × β)) (a : α) :
    (ρ.move as).lookup (ρ.move a) = ρ.move (as.lookup a) := by
  induction as with
  | nil => rfl
  | cons p as ih =>
    obtain ⟨b, c⟩ := p
    rw [move_cons, move_pair, List.lookup_cons, List.lookup_cons, move_beq, ih]
    cases a == b <;> rfl

/-! ## Types -/

@[simp] theorem move_noType : ρ.move Ty.noType = .noType := rfl
@[simp] theorem move_noPrefix : ρ.move Ty.noPrefix = .noPrefix := rfl
@[simp] theorem move_error : ρ.move Ty.error = .error := rfl
@[simp] theorem move_wildcard : ρ.move Ty.wildcard = .wildcard := rfl
@[simp] theorem move_dangling (key : Nat) : ρ.move (Ty.dangling key) = .dangling key := rfl
@[simp] theorem move_this (s : SymbolId) : ρ.move (Ty.this s) = .this (ρ.move s) := rfl

@[simp] theorem move_single (pre : Ty) (s : SymbolId) :
    ρ.move (Ty.single pre s) = .single (ρ.move pre) (ρ.move s) := rfl

@[simp] theorem move_const (value : Constant) : ρ.move (Ty.const value) = .const value := rfl

@[simp] theorem move_ref (pre : Ty) (s : SymbolId) (args : List Ty) :
    ρ.move (Ty.ref pre s args) = .ref (ρ.move pre) (ρ.move s) (ρ.move args) :=
  congrArg (Ty.ref _ _) (Ty.relabelAll_eq_map _ _ _)

@[simp] theorem move_refined (parents : List Ty) (decls : List SymbolId) (cls : SymbolId) :
    ρ.move (Ty.refined parents decls cls) = .refined (ρ.move parents) (ρ.move decls) (ρ.move cls) :=
  congrArg (Ty.refined · _ _) (Ty.relabelAll_eq_map _ _ _)

@[simp] theorem move_exist (qs : List SymbolId) (body : Ty) :
    ρ.move (Ty.exist qs body) = .exist (ρ.move qs) (ρ.move body) := rfl

@[simp] theorem move_annotated (as : List SymbolId) (body : Ty) :
    ρ.move (Ty.annotated as body) = .annotated (ρ.move as) (ρ.move body) := rfl

@[simp] theorem move_boundedWildcard (b : Ty) : ρ.move
    (Ty.boundedWildcard b) = .boundedWildcard (ρ.move b) := rfl

@[simp] theorem move_bounds (lo hi : Ty) : ρ.move (Ty.bounds lo hi) = .bounds (ρ.move lo)
    (ρ.move hi) := rfl

@[simp] theorem move_method (ps : List SymbolId) (r : Ty) (flags : MethodFlags) :
    ρ.move (Ty.method ps r flags) = .method (ρ.move ps) (ρ.move r) flags := rfl

@[simp] theorem move_nullary (r : Ty) : ρ.move (Ty.nullary r) = .nullary (ρ.move r) := rfl

@[simp] theorem move_poly (ps : List SymbolId) (r : Ty) :
    ρ.move (Ty.poly ps r) = .poly (ρ.move ps) (ρ.move r) := rfl

@[simp] theorem move_var (v : VarId) : ρ.move (Ty.var v) = .var (ρ.move v) := rfl
@[simp] theorem move_notNull (body : Ty) : ρ.move (Ty.notNull body) = .notNull (ρ.move body) := rfl

@[simp] theorem move_eq_noPrefix {ty : Ty} : ρ.move ty = .noPrefix ↔ ty = .noPrefix :=
  move_inj (b := Ty.noPrefix)

@[simp] theorem isSentinel_move (ty : Ty) : (ρ.move ty).isSentinel =
    ty.isSentinel := by cases ty <;> rfl

@[simp] theorem isPermissive_move (ty : Ty) : (ρ.move ty).isPermissive =
    ty.isPermissive := by cases ty <;> rfl

@[simp] theorem isPresent_move (ty : Ty) : (ρ.move ty).isPresent =
    ty.isPresent := by cases ty <;> rfl

@[simp] theorem isSingletonRef_move (ty : Ty) : (ρ.move ty).isSingletonRef =
    ty.isSingletonRef := by cases ty <;> rfl

@[simp] theorem isConstant_move (ty : Ty) : (ρ.move ty).isConstant =
    ty.isConstant := by cases ty <;> rfl

@[simp] theorem isSingleton_move (ty : Ty) : (ρ.move ty).isSingleton =
    ty.isSingleton := by cases ty <;> rfl

@[simp] theorem move_existential (qs : List SymbolId) (body : Ty) :
    Ty.existential (ρ.move qs) (ρ.move body) = ρ.move (Ty.existential qs body) := by
  cases qs <;> rfl

@[simp] theorem move_annotate (as : List SymbolId) (body : Ty) :
    Ty.annotate (ρ.move as) (ρ.move body) = ρ.move (Ty.annotate as body) := by
  cases as <;> rfl

@[simp] theorem move_lambda (ps : List SymbolId) (result : Ty) :
    Ty.lambda (ρ.move ps) (ρ.move result) = ρ.move (Ty.lambda ps result) := by
  cases ps <;> rfl

@[simp] theorem withoutAnnotations_move (ty : Ty) :
    (ρ.move ty).withoutAnnotations = ρ.move ty.withoutAnnotations := by
  induction ty using Ty.withoutAnnotations.induct with
  | case1 as body ih => exact ih
  | case2 ty hty => cases ty <;> first | rfl | exact absurd rfl (hty _ _)

@[simp] theorem annotations_move (ty : Ty) : (ρ.move ty).annotations = ρ.move ty.annotations := by
  induction ty using Ty.annotations.induct with
  | case1 as body ih => rw [move_annotated, Ty.annotations, ih, Ty.annotations, move_append]
  | case2 ty hty => cases ty <;> first | rfl | exact absurd rfl (hty _ _)

@[simp] theorem binders_move (ty : Ty) : (ρ.move ty).binders =
    ρ.move ty.binders := by cases ty <;> rfl

/-! ## Records -/

section Records

variable (r : SymbolRecord)

@[simp] theorem owner_move : (ρ.move r).owner = ρ.move r.owner := rfl
@[simp] theorem tparams_move : (ρ.move r).tparams = ρ.move r.tparams := rfl
@[simp] theorem info_move : (ρ.move r).info = ρ.move r.info := rfl
@[simp] theorem parents_move : (ρ.move r).parents = ρ.move r.parents := rfl
@[simp] theorem companion_move : (ρ.move r).companion = ρ.move r.companion := rfl

theorem decls_move : (ρ.move r).decls.toList = ρ.move r.decls.toList := Array.toList_map

@[simp] theorem name_move : (ρ.move r).name = r.name := rfl
@[simp] theorem kind_move : (ρ.move r).kind = r.kind := rfl
@[simp] theorem flags_move : (ρ.move r).flags = r.flags := rfl
@[simp] theorem level_move : (ρ.move r).level = r.level := rfl
@[simp] theorem isClass_move : (ρ.move r).isClass = r.isClass := rfl
@[simp] theorem isType_move : (ρ.move r).isType = r.isType := rfl
@[simp] theorem isTerm_move : (ρ.move r).isTerm = r.isTerm := rfl
@[simp] theorem isPackageClass_move : (ρ.move r).isPackageClass = r.isPackageClass := rfl
@[simp] theorem isModuleClass_move : (ρ.move r).isModuleClass = r.isModuleClass := rfl
@[simp] theorem isRefinementClass_move : (ρ.move r).isRefinementClass = r.isRefinementClass := rfl
@[simp] theorem isAbstractType_move : (ρ.move r).isAbstractType = r.isAbstractType := rfl
@[simp] theorem isAliasType_move : (ρ.move r).isAliasType = r.isAliasType := rfl
@[simp] theorem isMethod_move : (ρ.move r).isMethod = r.isMethod := rfl
@[simp] theorem isHidden_move : (ρ.move r).isHidden = r.isHidden := rfl
@[simp] theorem isJava_move : (ρ.move r).isJava = r.isJava := rfl
@[simp] theorem variance_move : (ρ.move r).variance = r.variance := rfl

end Records

@[simp] theorem move_ite (c : Prop) [Decidable c] (a b : α) :
    ρ.move (if c then a else b) = if c then ρ.move a else ρ.move b := apply_ite _ _ _ _

/-! ## Known symbols -/

theorem move_known {s : SymbolId} (hs : s.val < Known.count) : ρ.move s = s := ρ.known hs

@[simp] theorem move_absent : ρ.move SymbolId.none = .none := move_known (by decide)

@[simp] theorem isPresent_moveSym (s : SymbolId) : (ρ.move s).isPresent = s.isPresent := by
  have absent : ∀ s : SymbolId, s.isPresent = (s != .none) := fun ⟨n⟩ => by cases n <;> rfl
  have same := move_bne (ρ := ρ) s .none
  rwa [move_absent, ← absent, ← absent] at same

theorem move_beq_known (s : SymbolId) {k : SymbolId}
    (hk : k.val < Known.count) : (ρ.move s == k) = (s == k) := by
  have same := move_beq (ρ := ρ) s k
  rwa [move_known hk] at same

@[simp] theorem beq_any (s : SymbolId) : (ρ.move s == Known.any) = (s == Known.any) :=
    move_beq_known s (by decide)

@[simp] theorem beq_nothing (s : SymbolId) : (ρ.move s == Known.nothing) = (s == Known.nothing) :=
    move_beq_known s (by decide)

@[simp] theorem beq_null (s : SymbolId) : (ρ.move s == Known.null) = (s == Known.null) :=
    move_beq_known s (by decide)

@[simp] theorem beq_singleton (s : SymbolId) : (ρ.move s == Known.singleton) =
    (s == Known.singleton) :=
  move_beq_known s (by decide)

@[simp] theorem beq_notNull (s : SymbolId) : (ρ.move s == Known.notNull) = (s == Known.notNull) :=
    move_beq_known s (by decide)

@[simp] theorem beq_object (s : SymbolId) : (ρ.move s == Known.object) = (s == Known.object) :=
    move_beq_known s (by decide)

theorem move_scalaRef {s : SymbolId} (hs : s.val < Known.count) :
    ρ.move (Known.scalaRef s) = Known.scalaRef s := by
  rw [Known.scalaRef, move_ref, move_this, move_known hs,
    move_known (s := Known.scalaClass) (by decide), move_nil]

theorem move_javaLangRef {s : SymbolId} (hs : s.val < Known.count) :
    ρ.move (Known.javaLangRef s) = Known.javaLangRef s := by
  rw [Known.javaLangRef, move_ref, move_this, move_known hs,
    move_known (s := Known.javaLangClass) (by decide), move_nil]

@[simp] theorem move_anyType : ρ.move Known.anyType = Known.anyType := move_scalaRef (by decide)

@[simp] theorem move_nothingType : ρ.move Known.nothingType = Known.nothingType :=
    move_scalaRef (by decide)

@[simp] theorem move_constantType (value : Constant) :
    ρ.move (Known.constantType value) = Known.constantType value := by
  have known : (Known.constantClass value).val < Known.count := by
    cases value <;> exact Nat.le_of_ble_eq_true rfl
  cases value with
  | str => exact move_javaLangRef known
  | _ => exact move_scalaRef known

end Values

end Relabeling

end Conformance

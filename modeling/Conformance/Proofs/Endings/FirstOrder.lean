import Conformance.Proofs.Endings.Convergence
import Conformance.Proofs.Endings.Families

/-! # Views of first-order types end

A type without binders is mapped part by part, so substitutions take as much fuel as it is deep. A
view then takes one substitution, unless it is of a member of a class with parameters: there it
looks for a base type, which takes views in turn. -/

namespace Conformance

open SymM

namespace SymbolTable

variable (t : SymbolTable)

/-- The symbol is not a member of a class with type parameters. -/
def OwnedPlainly (s : SymbolId) : Prop := (t.get (t.owner s)).isClass = true →
    t.tparams (t.owner s) = []

/-- The info of the symbol is a type without parameters or members of its own. -/
def IsSimple (s : SymbolId) : Prop := (t.get s).isMethod = false ∧
    (t.get s).isRefinementClass = false

/-- Types without binders that select no member of a class with type parameters, and no method. -/
inductive FirstOrder : Ty → Prop where
  | noType : FirstOrder .noType
  | noPrefix : FirstOrder .noPrefix
  | error : FirstOrder .error
  | wildcard : FirstOrder .wildcard
  | dangling (key : Nat) : FirstOrder (.dangling key)
  | var (v : VarId) : FirstOrder (.var v)
  | const (v : Constant) : FirstOrder (.const v)
  | this {s : SymbolId} (self : FirstOrder (t.typeRefOf s)) : FirstOrder (.this s)
  | single {pre : Ty} {s : SymbolId} (path : FirstOrder pre) (owned : pre = .noPrefix ∨
      t.OwnedPlainly s) (simple : t.IsSimple s) : FirstOrder (.single pre s)
  | ref {pre : Ty} {s : SymbolId} {args : List Ty}
      (path : FirstOrder pre) (owned : pre = .noPrefix ∨ t.OwnedPlainly s)
      (simple : t.IsSimple s) (each : ∀ a ∈ args, FirstOrder a) : FirstOrder (.ref pre s args)
  | annotated {as : List SymbolId} {body : Ty} (inner : FirstOrder body) :
    FirstOrder (.annotated as body)
  | boundedWildcard {bounds : Ty} (inner : FirstOrder bounds) : FirstOrder (.boundedWildcard bounds)
  | bounds {lo hi : Ty} (lower : FirstOrder lo) (upper : FirstOrder hi) : FirstOrder (.bounds lo hi)
  | nullary {result : Ty} (inner : FirstOrder result) : FirstOrder (.nullary result)
  | notNull {body : Ty} (inner : FirstOrder body) : FirstOrder (.notNull body)

/-- The declared types are first-order: right-hand sides, bounds, types of values, parents. They may
be cyclic. -/
structure FirstOrderDeclarations : Prop where
  info (s : SymbolId) : t.IsSimple s → t.FirstOrder (t.info s)
  parents (s : SymbolId) : ∀ p ∈ (t.get s).parents, t.FirstOrder p
  params (s : SymbolId) : ∀ p ∈ t.tparams s, t.FirstOrder (t.typeConstructor p)
  nothing : t.FirstOrder Known.nothingType
  any : t.FirstOrder Known.anyType
  constants (v : Constant) : t.FirstOrder (Known.constantType v)

end SymbolTable

open SymbolTable

/-- `x` ends with a first-order type, and leaves the table as it is. -/
def EndsFirstOrder (t : SymbolTable) (x : Nat → SymM Ty) : Prop :=
    Ends t x fun ty' t' => t' = t ∧ t.FirstOrder ty'

variable {t : SymbolTable} {ty pre : Ty} {s : SymbolId}

theorem SymbolTable.FirstOrder.parts (h : t.FirstOrder ty) : ∀ c ∈ ty.parts, t.FirstOrder c := by
  cases h with
  | ref path _ _ each => exact List.forall_mem_cons.2 ⟨path, each⟩
  | bounds lower upper => exact List.forall_mem_cons.2 ⟨lower, List.forall_mem_singleton.2 upper⟩
  | single inner | annotated inner | boundedWildcard inner | nullary inner | notNull inner =>
    exact List.forall_mem_singleton.2 inner
  | _ => nofun

theorem SymbolTable.FirstOrder.withParts {cs : List Ty} (h : t.FirstOrder ty)
    (hcs : List.Forall₂ (Becomes t.FirstOrder) ty.parts cs) : t.FirstOrder (ty.withParts cs) := by
  cases h with
  | ref _ owned simple _ =>
    obtain _ | ⟨path, rest⟩ := hcs
    refine .ref path.1 (owned.imp path.2 id) simple fun a mem => ?_
    obtain ⟨_, -, each⟩ := exists_of_forall₂ rest mem
    exact each.1
  | single _ owned simple =>
    obtain _ | ⟨path, _ | _⟩ := hcs
    exact .single path.1 (owned.imp path.2 id) simple
  | bounds =>
    obtain _ | ⟨lower, _ | ⟨upper, _ | _⟩⟩ := hcs
    exact .bounds lower.1 upper.1
  | annotated =>
    obtain _ | ⟨inner, _ | _⟩ := hcs
    rw [Ty.withParts, Ty.annotate]
    split
    · exact inner.1
    · exact .annotated inner.1
  | boundedWildcard | nullary | notNull =>
    obtain _ | ⟨inner, _ | _⟩ := hcs
    constructor
    exact inner.1
  | _ =>
    obtain _ | _ := hcs
    constructor <;> assumption

namespace SymbolTable.FirstOrderDeclarations

variable (ht : t.FirstOrderDeclarations)
include ht

theorem boundsOf (simple : t.IsSimple s) : t.FirstOrder (t.boundsOf s).1 ∧
    t.FirstOrder (t.boundsOf s).2 := by
  have info := ht.info s simple
  unfold SymbolTable.boundsOf
  split
  · next eq =>
    rw [eq] at info
    cases info with
    | bounds lower upper => exact ⟨lower, upper⟩
  · exact ⟨ht.nothing, ht.any⟩
  · exact ⟨ht.nothing, ht.any⟩
  · exact ⟨info, info⟩

theorem family : Family t t.FirstOrder where
  binders h := by cases h <;> rfl
  noExist := nofun
  noPoly := nofun
  noType := .noType
  parts := .parts
  rebuilt := .withParts
  applied h _ each := by
    cases h with
    | ref path owned simple _ => exact .ref path owned simple each
  const _ := ht.constants _
  self h := by
    cases h with
    | this self => exact self
  refinement h isRefinement := by
    cases h with
    | this self =>
      cases self with
      | ref _ _ simple => simp [simple.2] at isRefinement
  info h := by
    obtain h | ⟨_, h⟩ := h
    · cases h with
      | single _ _ simple => exact ht.info _ simple
    · cases h with
      | ref _ _ simple _ => exact ht.info _ simple
  parents _ := ht.parents _
  bounds h _ := by
    cases h with
    | ref _ _ simple _ => exact ht.boundsOf simple

/-- A view of a first-order type looks for no base type. -/
theorem sees {F : FuelContract} (h : Fuelled t F) {n : Nat} (selects : Selects t.FirstOrder pre s)
    (hty : t.FirstOrder ty) : F n (fun m => asSeenFrom m ty pre (t.get s).owner) t.FirstOrder := by
  refine h.step (fun t' => ⟨_, t', rfl⟩) (fun n => ?_) n
  refine ht.family.asSeenFrom_step h hty (ht.family.path selects) fun present isClass generic => ?_
  have owned : pre = .noPrefix ∨ t.OwnedPlainly s := by
    obtain selects | ⟨_, selects⟩ := selects
    · cases selects with
      | single _ owned _ => exact owned
    · cases selects with
      | ref _ owned _ _ => exact owned
  exact absurd (owned.resolve_left present isClass) generic

end SymbolTable.FirstOrderDeclarations

/-- `x` ends on the tables of which `I` holds, and leaves such a table. -/
def EndsAmong (I : SymbolTable → Prop) (_ : Nat) {α : Type}
    (x : Nat → SymM α) (P : α → Prop) : Prop :=
  ∀ t', I t' → Ends t' x fun a t'' => I t'' ∧ P a

theorem ends_fuelled {I : SymbolTable → Prop} (hI : ∀ t', I t' → t'.records = t.records) :
    Fuelled t (EndsAmong I) where
  pure ha t' ht' := .pure ⟨ht', ha⟩
  bind hx hf t' ht' := (hx t' ht').bind fun a t'' h => hf a h.2 t'' h.1
  read {_ _ f _} same hf t' ht' := by
    have read : ∀ m, f m t' = f m t := fun m => by rw [← same m t'.linearized, ← hI t' ht']
    refine .after rfl ?_
    simp only [read]
    exact hf t' ht'
  step zero hx n t' ht' := by
    obtain ⟨e, t'', fails⟩ := zero t'
    exact .step (fun b s run => nomatch fails.symm.trans run) (hx n t' ht')

theorem ends_same : Fuelled t (EndsAmong (· = t)) := ends_fuelled fun _ => congrArg _

section Views

variable (ht : t.FirstOrderDeclarations)
include ht

theorem dealiasUpTo_ends (k : Nat) (h : t.FirstOrder ty) : EndsFirstOrder t fun n =>
    View.dealias n (asSeenFrom n) k ty :=
  ht.family.dealias ends_same (n := 0) (ht.sees ends_same) k h t rfl

theorem underlying_ends (h : t.FirstOrder ty) : EndsFirstOrder t fun n => underlying n ty :=
  ht.family.underlying ends_same (n := 0) (ht.sees ends_same) h t rfl

theorem refBounds_ends (h : t.FirstOrder ty) :
    Ends t (fun n => refBounds n ty) fun b t' => t' = t ∧ t.FirstOrder b.1 ∧ t.FirstOrder b.2 := by
  cases h with
  | ref path owned simple each =>
    exact ht.family.refBounds ends_same (n := 0) (ht.sees ends_same)
      (.ref path owned simple each) (ht.boundsOf simple) t rfl
  | bounds lower upper => exact .pure ⟨rfl, lower, upper⟩
  | _ => exact .pure ⟨rfl, ht.nothing, ht.any⟩

theorem upperBound_ends (h : t.FirstOrder ty) : EndsFirstOrder t fun n => upperBound n ty := by
  refine .onward (refBounds_ends ht h) fun b ⟨_, hhi⟩ => ?_
  exact .pure ⟨rfl, hhi⟩

end Views

/-! ## Walks with a budget end

Expanding aliases, widening paths, looking for the symbol or for a base type of a type: each step is
a view, and the budget bounds the steps, so the declarations may be cyclic. -/

namespace SymbolTable

variable {t t' : SymbolTable} {ty : Ty}

/-- First-order types, and functions to them. -/
inductive Formed (t : SymbolTable) : Ty → Prop where
  | proper {ty : Ty} (h : t.FirstOrder ty) : Formed t ty
  | poly {ps : List SymbolId} {body : Ty} (h : t.FirstOrder body) : Formed t (.poly ps body)

theorem Formed.lambda {ps : List SymbolId} (h : t.FirstOrder ty) : t.Formed (.lambda ps ty) := by
  unfold Ty.lambda
  split
  · exact .proper h
  · exact .poly h

end SymbolTable

/-! ## Linearizations -/

theorem SymM.baseClasses_ends (s : SymbolId) (t : SymbolTable) :
    Ends t (fun _ => baseClasses s) fun _ t' => t'.records = t.records := by
  obtain ⟨cs, t', run, same⟩ := exists_linearize Limits.linearizationDepth [] s t
  exact ⟨cs, t', .always fun _ => run, same⟩

theorem SymM.isNonBottomSubClass_ends (s1 s2 : SymbolId) (t : SymbolTable) :
    Ends t (fun _ => isNonBottomSubClass s1 s2) fun _ t' => t'.records = t.records :=
  .ite (fun _ => .pure rfl) fun _ => .bind (baseClasses_ends s1 t) fun _ _ same => .pure same

section Walks

variable {t : SymbolTable} (ht : t.FirstOrderDeclarations) {ty : Ty}
include ht

theorem normalizeUpTo_ends (k : Nat) (h : t.FirstOrder ty) :
    Ends t (fun n => normalizeUpTo n k ty) fun ty' t' => t' = t ∧ t.Formed ty' := by
  refine ht.family.normalizeUpTo ends_same (n := 0)
    (ht.sees ends_same) .proper (fun {pre s} h => ?_) (fun _ => .lambda) k h t rfl
  cases h with
  | ref path owned simple _ =>
    refine .ref path owned simple fun a mem => ?_
    obtain ⟨p, param, rfl⟩ := List.mem_map.1 mem
    exact ht.params s p param

theorem widenUpTo_ends (k : Nat) (h : t.FirstOrder ty) : EndsFirstOrder t fun n =>
    widenUpTo n k ty := by
  induction k generalizing ty with
  | zero => exact .pure ⟨rfl, h⟩
  | succ k ih =>
    refine .ite (fun _ => .pure ⟨rfl, h⟩) fun _ => .onward (underlying_ends ht h) fun ty' hty' => ?_
    exact ih hty'

theorem typeSymbolUpTo_ends (k : Nat) (h : t.Formed ty) :
    Ends t (fun n => typeSymbolUpTo n k ty) fun _ t' => t' = t := by
  have found := ht.family.typeSymbolUpTo ends_same (n := 0) (ht.sees ends_same)
    .proper (fun hty => ?_) (fun hty t' same => same ▸ normalizeUpTo_ends ht _ hty) k h t rfl
  · exact found.imp fun _ _ => And.left
  · cases hty with
    | proper h => exact .inl h
    | poly h => exact .inr ⟨_, _, rfl, h⟩

/-- Base types are looked for along linearizations, which are remembered. -/
theorem baseTypeUpTo_ends (cls : SymbolId) (k : Nat) (h : t.FirstOrder ty)
    (same : t'.records = t.records) : Ends t' (fun n => View.baseTypeUpTo n (asSeenFrom n) cls k ty)
    fun ty' t' => t'.records = t.records ∧ t.FirstOrder ty' := by
  have fuelled := ends_fuelled (t := t) (I := (·.records = t.records)) fun _ => id
  refine ht.family.baseTypeUpTo fuelled (n := 0) (ht.sees fuelled)
    (fun c d t' same => ?_) cls k h t' same
  exact (isNonBottomSubClass_ends c d t').imp fun _ _ same' => ⟨same'.trans same, trivial⟩

end Walks

end Conformance

import Conformance.Proofs.Attains
import Conformance.Proofs.Reach
import Conformance.Proofs.Scope.Basic

/-! # Operations on families of types without binders

A type without binders is mapped part by part. So a family of such types that is closed under new
parts, and that the declarations of the symbols named in it belong to, is closed under substitutions
and views, and under what takes views in turn. This holds of whatever is said of operations with
fuel: that some fuel is enough, or that more fuel makes no difference. -/

namespace Conformance

open SymM

/-- Something said of an operation, given `n` units of fuel, and of its answer. -/
abbrev FuelContract := Nat → {α : Type} → (Nat → SymM α) → (α → Prop) → Prop

/-- The contract is composed along the structure of operations, over the declarations of `t`.
Operations that fail without fuel spend one unit. -/
structure Fuelled (t : SymbolTable) (F : FuelContract) : Prop where
  pure {n : Nat} {α : Type} {a : α} {P : α → Prop} : P a → F n (fun _ => Pure.pure a) P
  bind {n : Nat} {α β : Type} {x : Nat → SymM α} {f : Nat → α → SymM β} {P : α → Prop}
    {Q : β → Prop} : F n x P → (∀ a, P a → F n (f · a) Q) → F n (fun m => x m >>= f m) Q
  read {n : Nat} {α : Type} {f : Nat → SymbolTable → SymM α} {P : α → Prop} :
    (∀ m l, f m { t with linearized := l } = f m t) → F n (f · t) P → F n (fun m => get >>= f m) P
  step {α : Type} {x : Nat → SymM α} {P : α → Prop} : (∀ t', ∃ e t'', x 0 t' = .error e t'') →
    (∀ n, F n (fun m => x (m + 1)) P) → ∀ n, F n x P

namespace Fuelled

variable {t : SymbolTable} {F : FuelContract} {n : Nat} {α β : Type}

theorem ite (_ : Fuelled t F) {c : Prop} [Decidable c] {x y : Nat → SymM α} {P : α → Prop}
    (hx : c → F n x P) (hy : ¬ c → F n y P) : F n (fun m => if c then x m else y m) P := by
  by_cases hc : c
  · simp only [if_pos hc]
    exact hx hc
  · simp only [if_neg hc]
    exact hy hc

variable (h : Fuelled t F)
include h

theorem imp {x : Nat → SymM α} {P Q : α → Prop} (hx : F n x P)
    (hPQ : ∀ a, P a → Q a) : F n x Q := by
  simpa only [bind_pure] using h.bind hx fun a ha => h.pure (hPQ a ha)

theorem record {s : SymbolId} {f : Nat → SymbolRecord → SymM α}
    {P : α → Prop} (hf : F n (f · (t.get s)) P) : F n (fun m => SymM.record s >>= f m) P :=
    h.read (f := fun m t' => f m (t'.get s)) (fun _ _ => rfl) hf

theorem mapM {f : Nat → α → SymM β} {R : α → β → Prop} {as : List α}
    (hf : ∀ a ∈ as, F n (f · a) (R a)) : F n (fun m => as.mapM (f m)) (List.Forall₂ R as) := by
  induction as with
  | nil => exact h.pure .nil
  | cons a as ih =>
    simp only [List.mapM_cons]
    rw [List.forall_mem_cons] at hf
    exact h.bind hf.1 fun b hb => h.bind (ih hf.2) fun bs hbs => h.pure (.cons hb hbs)

theorem firstPresent {f : Nat → α → SymM Ty} {as : List α} {T : Ty → Prop} (none : T .noType)
    (hf : ∀ a ∈ as, F n (f · a) T) : F n (fun m => View.firstPresent (f m) as) T := by
  induction as with
  | nil => exact h.pure none
  | cons a as ih =>
    rw [List.forall_mem_cons] at hf
    exact h.bind hf.1 fun ty hty => h.ite (fun _ => h.pure hty) fun _ => ih hf.2

end Fuelled

/-! ## Families -/

/-- A type of the family in place of `ty`. -/
def Becomes (T : Ty → Prop) (ty ty' : Ty) : Prop := T ty' ∧ (ty = .noPrefix → ty' = .noPrefix)

/-- A type of the family selects `s` from `pre`. -/
def Selects (T : Ty → Prop) (pre : Ty) (s : SymbolId) : Prop :=
    T (.single pre s) ∨ ∃ args, T (.ref pre s args)

/-- Types without binders, closed under new parts and under what the symbols that they name are
declared with. -/
structure Family (t : SymbolTable) (T : Ty → Prop) : Prop where
  binders {ty : Ty} : T ty → ty.binders = []
  noExist {qs : List SymbolId} {body : Ty} : ¬ T (.exist qs body)
  noPoly {ps : List SymbolId} {result : Ty} : ¬ T (.poly ps result)
  noType : T .noType
  parts {ty : Ty} : T ty → ∀ c ∈ ty.parts, T c
  rebuilt {ty : Ty} {cs : List Ty} : T ty → List.Forall₂ (Becomes T) ty.parts cs →
    T (ty.withParts cs)
  applied {pre : Ty} {s : SymbolId} {args : List Ty} :
    T (.ref pre s []) → args ≠ [] → (∀ a ∈ args, T a) → T (.ref pre s args)
  const {v : Constant} : T (.const v) → T (Known.constantType v)
  self {s : SymbolId} : T (.this s) → T (t.typeRefOf s)
  refinement {s : SymbolId} : T (.this s) → (t.get s).isRefinementClass = true → T (t.info s)
  info {pre : Ty} {s : SymbolId} : Selects T pre s → T (t.info s)
  parents {pre : Ty} {s : SymbolId} {args : List Ty} :
    T (.ref pre s args) → ∀ p ∈ (t.get s).parents, T p
  bounds {pre : Ty} {s : SymbolId} {args : List Ty} :
    T (.ref pre s args) → (t.get s).isAbstractType = true → T (t.boundsOf s).1 ∧ T (t.boundsOf s).2

namespace Family

theorem path {t : SymbolTable} {T : Ty → Prop} (hT : Family t T)
    {pre : Ty} {s : SymbolId} (h : Selects T pre s) : T pre := by
  obtain h | ⟨_, h⟩ := h <;> exact hT.parts h pre List.mem_cons_self

theorem args {t : SymbolTable} {T : Ty → Prop} (hT : Family t T)
    {pre : Ty} {s : SymbolId} {args : List Ty} (h : T (.ref pre s args)) : ∀ a ∈ args, T a :=
    (List.forall_mem_cons.1 (hT.parts h)).2

variable {t : SymbolTable} {F : FuelContract} (h : Fuelled t F)
  {T : Ty → Prop} (hT : Family t T) {n : Nat} {ty pre : Ty} {s : SymbolId} {args : List Ty}
include h hT

/-! ## Substitutions -/

theorem mapOver {rb : Nat → Rebinding} {f : Nat → TypeMap}
    (hty : T ty) (hf : ∀ c ∈ ty.parts, F n (f · c) (Becomes T c)) :
    F n (fun m => (rb m).mapOver (f m) ty) (Becomes T ty) := by
  simp only [Rebinding.mapOver_eq _ _ (hT.binders hty)]
  refine h.bind (h.mapM hf) fun cs hcs => h.pure ?_
  split
  · exact ⟨hty, id⟩
  · refine ⟨hT.rebuilt hty hcs, ?_⟩
    rintro rfl
    rfl

theorem substThis {n : Nat} {ty target : Ty} (htarget : T target) (cls : SymbolId) (hty : T ty) :
    F n (Conformance.substThis · cls target ty) (Becomes T ty) := by
  refine h.step (fun t' => ⟨_, t', rfl⟩) (fun n => ?_) n
  unfold Conformance.substThis
  refine h.ite (fun _ => h.pure ⟨hty, id⟩) fun _ =>
    h.ite (fun isThis => h.pure ⟨htarget, ?_⟩) fun _ =>
    hT.mapOver h hty fun c mem => substThis htarget cls (hT.parts hty c mem)
  rintro rfl
  cases isThis
termination_by sizeOf ty
decreasing_by exact Ty.sizeOf_lt_of_part mem

theorem applyArgsWith {subst : Nat → List SymbolId → List Ty → TypeMap}
    {tycon : Ty} (htycon : T tycon) (hargs : ∀ a ∈ args, T a)
    (ne : args ≠ []) : F n (fun m => Conformance.applyArgsWith (subst m) tycon args) T := by
  unfold Conformance.applyArgsWith
  split
  · exact h.pure (hT.applied htycon ne hargs)
  · exact absurd htycon hT.noPoly
  · exact h.pure htycon

theorem substTypes {n : Nat} {ty : Ty} (src : List SymbolId) {dst : List Ty} (hdst : ∀ a ∈ dst, T a)
    (hty : T ty) : F n (Conformance.substTypes · src dst ty) (Becomes T ty) := by
  refine h.step (fun t' => ⟨_, t', rfl⟩) (fun n => ?_) n
  have parts : ∀ c ∈ ty.parts, F n (Conformance.substTypes · src dst c) (Becomes T c) :=
    fun c mem =>
    substTypes src hdst (hT.parts hty c mem)
  have mapped : F n (fun m => (Rebinding.at m).mapOver (Conformance.substTypes m src dst) ty)
    (Becomes T ty) :=
    hT.mapOver h hty parts
  unfold Conformance.substTypes
  refine h.ite (fun _ => h.pure ⟨hty, id⟩) fun _ => ?_
  split
  · next s args _ =>
    cases found : (src.zip dst).lookup s with
    | none => exact mapped
    | some replacement =>
      have hreplacement : T replacement := hdst _ (List.of_mem_zip (mem_of_lookup found)).2
      refine h.ite (fun _ => h.pure ⟨hreplacement, nofun⟩) fun nonempty => ?_
      refine h.bind (h.mapM fun a mem => parts a (List.mem_cons_of_mem _ mem)) fun args' hargs' =>
        ?_
      refine h.imp (hT.applyArgsWith h hreplacement (fun a mem => ?_) fun none =>
        nonempty ?_) fun _ h => ⟨h, nofun⟩
      · obtain ⟨_, -, ha⟩ := exists_of_forall₂ hargs' mem
        exact ha.1
      · rw [List.isEmpty_iff, ← List.length_eq_zero_iff, hargs'.length_eq, none]
        rfl
  · exact mapped
termination_by sizeOf ty
decreasing_by exact Ty.sizeOf_lt_of_part mem

/-! ## Views -/

section Views

variable {see : Nat → View} (hsee : ∀ {ty pre : Ty} {s : SymbolId}, Selects T pre s →
  T ty → F n (fun m => see m ty pre (t.get s).owner) T)
include hsee

theorem expandAlias (hty : T (.ref pre s args)) : F
    n (fun m => View.expandAlias m (see m) pre s args) T := by
  have hargs := hT.args hty
  refine h.record (h.bind (hsee (.inr ⟨_, hty⟩) (hT.info (.inr ⟨_, hty⟩))) fun rhs hrhs => ?_)
  exact h.imp (hT.substTypes h _ hargs hrhs) fun _ => And.left

theorem dealias (k : Nat) (hty : T ty) : F n (fun m => View.dealias m (see m) k ty) T := by
  induction k generalizing ty with
  | zero => exact h.pure hty
  | succ k ih =>
    unfold View.dealias
    split
    · refine h.record (h.ite (fun _ => h.pure hty) fun _ =>
        h.bind (hT.expandAlias h hsee hty) fun rhs hrhs => ih hrhs)
    · exact h.pure hty

theorem underlying (hty : T ty) : F n (fun m => View.underlying (see m) ty) T := by
  unfold View.underlying
  split
  · next s =>
    refine h.record (h.ite (fun refinement => h.pure (hT.refinement hty ?_)) fun _ =>
      h.read (fun _ _ => rfl) (h.pure (hT.self hty)))
    simp_all
  · refine h.record (h.bind (hsee (.inl hty) (hT.info (.inl hty))) fun info hinfo => ?_)
    split
    · exact h.pure (hT.parts hinfo _ List.mem_cons_self)
    · exact h.pure hinfo
  · exact h.pure (hT.const hty)
  · exact h.pure (hT.parts hty _ List.mem_cons_self)
  · exact h.pure (hT.parts hty _ List.mem_cons_self)
  · exact absurd hty hT.noExist
  · exact h.pure hty

theorem refBounds (hty : T (.ref pre s args)) (hbounds : T (t.boundsOf s).1 ∧ T (t.boundsOf s).2) :
    F n (fun m => View.refBounds m (see m) (.ref pre s args)) fun b => T b.1 ∧ T b.2 := by
  have applied : ∀ {ty : Ty}, T ty → F n (Conformance.substTypes · (t.get s).tparams args ty) T :=
    fun hty' =>
    h.imp (hT.substTypes h _ (hT.args hty) hty') fun _ => And.left
  refine h.record (h.read (fun _ _ => rfl) ?_)
  refine h.bind (hsee (.inr ⟨_, hty⟩) hbounds.1) fun lo hlo =>
    h.bind (applied hlo) fun lo' hlo' => ?_
  exact h.bind (hsee (.inr ⟨_, hty⟩) hbounds.2) fun hi hhi =>
    h.bind (applied hhi) fun hi' hhi' => h.pure ⟨hlo', hhi'⟩

theorem baseTypeUpTo (derives : ∀ c d, F n (fun _ => SymM.isNonBottomSubClass c d) fun _ => True)
    (cls : SymbolId) (k : Nat) (hty : T ty) : F n (fun m => View.baseTypeUpTo m (see m) cls k ty)
    T := by
  induction k generalizing ty with
  | zero => exact h.pure hT.noType
  | succ k ih =>
    have none := h.pure (n := n) hT.noType
    have classes : ∀ l, { t with linearized := l }.parentClass = t.parentClass :=
      fun _ => SymbolTable.parentClass_of_records rfl
    have onward : F n (fun m => View.underlying (see m) ty >>= View.baseTypeUpTo m (see m) cls k)
      T :=
      h.bind (hT.underlying h hsee hty) fun body => ih
    unfold View.baseTypeUpTo
    cases ty with
    | ref pre s args =>
      refine h.ite (fun _ => h.pure hty) fun _ => h.record
        (h.ite (fun _ => ?_) fun _ => h.ite (fun _ => ?_) fun _ =>
        h.ite (fun abstract => ?_) fun _ => none)
      · refine h.bind (derives s cls) fun _ _ => h.ite (fun _ => none) fun _ =>
          h.firstPresent hT.noType fun p hp => ?_
        refine h.read (fun _ l => by rw [classes l]) ?_
        refine h.ite (fun _ => none) fun _ => h.bind (derives _ cls) fun _ _ =>
          h.ite (fun _ => none) fun _ => ?_
        refine h.bind (hsee (.inr ⟨_, hty⟩) (hT.parents hty p hp)) fun seen hseen =>
          h.ite (fun _ => ?_) fun _ => ?_
        · exact h.bind (hT.substTypes h _ (hT.args hty) hseen) fun _ happlied =>
            ih happlied.1
        · exact h.bind (h.pure hseen) fun _ => ih
      · exact h.bind (hT.dealias h hsee _ hty) fun expanded hexpanded =>
          h.ite (fun _ => none) fun _ => ih hexpanded
      · exact h.bind (hT.refBounds h hsee hty (hT.bounds hty abstract)) fun b hb =>
          h.ite (fun _ => none) fun _ => ih hb.2
    | refined parents decls cls' =>
      exact h.ite (fun _ => h.pure hty) fun _ => h.firstPresent hT.noType fun p hp =>
        ih (hT.parts hty p hp)
    | this | single | const | notNull | annotated => exact onward
    | bounds lo hi => exact ih (hT.parts hty hi (List.mem_cons_of_mem _ List.mem_cons_self))
    | exist => exact absurd hty hT.noExist
    | _ => exact none

end Views

/-- A view, given the base type that it looks for. -/
theorem asSeenFrom_step {owner : SymbolId} (hty : T ty) (hpre : T pre)
    (hbase : pre ≠ .noPrefix → (t.get owner).isClass = true → (t.get owner).tparams ≠ [] →
      F n (fun m => View.baseType m (asSeenFrom m) pre owner) T) :
    F n (fun m => asSeenFrom (m + 1) ty pre owner) T := by
  unfold asSeenFrom
  refine h.ite (fun _ => h.pure hty) fun present =>
    h.record (h.ite (fun _ => h.pure hty) fun inClass => ?_)
  refine h.bind (hT.substThis h hpre owner hty) fun seen hseen =>
    h.ite (fun _ => h.pure hseen.1) fun generic => ?_
  refine h.bind (hbase (by simp_all) (by simp_all) (by simp_all)) fun base hbase => ?_
  split
  · exact h.imp (hT.substTypes h _ (hT.args hbase) hseen.1) fun _ => And.left
  · exact h.pure hseen.1

/-! ## Normal forms -/

section Normal

variable (hsee : ∀ {ty pre : Ty} {s : SymbolId}, Selects T pre s → T ty →
  F n (fun m => asSeenFrom m ty pre (t.get s).owner) T) {G : Ty → Prop} (hG : ∀ {ty}, T ty → G ty)
include hsee hG

/-- A normal form is in the family or a function to a type in it, as `G` says. -/
theorem normalizeUpTo
    (eta : ∀ {pre s}, T (.ref pre s []) → T (.ref pre s (t.paramRefs (t.get s).tparams)))
    (lambda : ∀ {pre s body}, T (.ref pre s []) → T body → G (.lambda (t.get s).tparams body))
    (k : Nat) (hty : T ty) : F n (fun m => Conformance.normalizeUpTo m k ty) G := by
  induction k generalizing ty with
  | zero => exact h.pure (hG hty)
  | succ k ih =>
    unfold Conformance.normalizeUpTo
    split
    · next pre s args =>
      refine h.record (h.ite (fun _ => h.ite (fun _ => ?_) fun _ =>
        h.ite (fun bare => ?_) fun _ => h.pure (hG hty)) fun _ => ?_)
      · exact h.bind (hT.expandAlias h hsee hty) fun rhs => ih
      · obtain rfl : args = [] := List.isEmpty_iff.1 bare
        exact h.bind (hsee (.inr ⟨_, hty⟩) (hT.info (.inr ⟨_, hty⟩))) fun seen hseen =>
          h.pure (lambda hty hseen)
      · refine h.read (fun _ _ => rfl)
          (h.ite (fun bare => h.read (fun _ _ => rfl) (h.pure ?_)) fun _ => h.pure (hG hty))
        obtain rfl : args = [] := by simp_all
        exact lambda hty (eta hty)
    · exact h.pure (hG hty)

theorem typeSymbolUpTo (split : ∀ {ty}, G ty → T ty ∨ ∃ ps body, ty = .poly ps body ∧ T body)
    (normal : ∀ {ty}, T ty → F n (fun m => normalize m ty) G) (k : Nat) (hty : G ty) :
    F n (fun m => Conformance.typeSymbolUpTo m k ty) fun _ => True := by
  induction k generalizing ty with
  | zero => exact h.pure trivial
  | succ k ih =>
    have inner : ∀ {c}, T ty → c ∈ ty.parts → F n (fun m => Conformance.typeSymbolUpTo m k c)
      fun _ => True :=
      fun hty mem => ih (hG (hT.parts hty _ mem))
    obtain hty | ⟨ps, body, rfl, hbody⟩ := split hty
    · have onward : F n (fun m => Conformance.underlying m ty >>= Conformance.typeSymbolUpTo m k)
        fun _ => True :=
        h.bind (hT.underlying h hsee hty) fun body hbody => ih (hG hbody)
      unfold Conformance.typeSymbolUpTo
      cases ty with
      | ref pre s args =>
        refine h.record (h.ite (fun _ => ?_) fun _ => h.pure trivial)
        exact h.bind (normal hty) fun expanded hexpanded =>
          h.ite (fun _ => h.pure trivial) fun _ => ih hexpanded
      | single | const => exact onward
      | annotated | notNull | nullary | exist | poly => exact inner hty List.mem_cons_self
      | _ => exact h.pure trivial
    · exact ih (hG hbody)

end Normal

end Family

end Conformance

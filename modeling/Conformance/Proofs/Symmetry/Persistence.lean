import Conformance.Proofs.Endings.FirstOrder
import Conformance.Proofs.Hierarchy

/-! # Operations on types without binders

What an operation answers on a type without binders depends on the declarations alone: it enters no
symbol, and what it reads of the linearizations is what would be computed if nothing were
remembered, as long as no class is its own base class. An answer once found stays the answer with
more fuel. -/

namespace Conformance

variable {s : SymbolId} {ty pre : Ty} {args : List Ty}

namespace SymM

variable {α β : Type}

/-- Over the declarations of `t`, whatever is remembered of the linearizations, `x n` fails, or it
gives an answer as `P` says, which is the answer with more fuel, too. -/
def Persists (t : SymbolTable) (n : Nat) (x : Nat → SymM α) (P : α → Prop) : Prop :=
  (∀ t', t.Computed t' → ∃ e t'', x n t' = .error e t'') ∨ ∃ a, P a ∧ ∀ m, n ≤ m →
    Gives t.Computed (x m) a

namespace Persists

variable {t : SymbolTable} {n : Nat} {x y : Nat → SymM α} {P Q : α → Prop}

theorem of_gives {x : SymM α} {a : α} (run : Gives t.Computed x a)
    (h : P a) : Persists t n (fun _ => x) P :=
  .inr ⟨a, h, fun _ _ => run⟩

theorem pure {a : α} (h : P a) : Persists t n (fun _ => Pure.pure a) P := of_gives (.pure a) h

theorem bind {f : Nat → α → SymM β} {Q : β → Prop} (hx : Persists t n x P)
    (hf : ∀ a, P a → Persists t n (f · a) Q) : Persists t n (fun m => x m >>= f m) Q := by
  obtain fails | ⟨a, ha, run⟩ := hx
  · refine .inl fun t' ht' => ?_
    obtain ⟨e, t'', failed⟩ := fails t' ht'
    exact ⟨e, t'', CheckM.bind_error failed⟩
  · obtain fails | ⟨b, hb, rest⟩ := hf a ha
    · refine .inl fun t' ht' => ?_
      obtain ⟨t1, first, ht1⟩ := run n (Nat.le_refl n) t' ht'
      obtain ⟨e, t'', failed⟩ := fails t1 ht1
      exact ⟨e, t'', (CheckM.bind_ok first).trans failed⟩
    · exact .inr ⟨b, hb, fun m le => .bind (run m le) (rest m le)⟩

theorem zero (h : ∀ t', ∃ e t'', x 0 t' = .error e t'') : Persists t 0 x P := .inl fun t' _ => h t'

theorem step (h : Persists t n (fun m => x (m + 1)) P) : Persists t (n + 1) x P := by
  refine h.imp_right fun ⟨a, ha, run⟩ => ⟨a, ha, fun m le => ?_⟩
  obtain ⟨m, rfl⟩ : ∃ k, m = k + 1 := ⟨m - 1, by omega⟩
  exact run m (by omega)

theorem get_bind {f : Nat → SymbolTable → SymM α} (read : ∀ m t', t.Computed t' → f m t' = f m t)
    (h : Persists t n (f · t) P) : Persists t n (fun m => get >>= f m) P := by
  refine Or.imp (fun fails t' ht' => ?_) (fun ⟨a, ha, run⟩ => ⟨a, ha, fun m le t' ht' => ?_⟩) h
  · obtain ⟨e, t'', failed⟩ := fails t' ht'
    exact ⟨e, t'', (congrFun (read n t' ht') t').trans failed⟩
  · obtain ⟨t'', run, ht''⟩ := run m le t' ht'
    exact ⟨t'', (congrFun (read m t' ht') t').trans run, ht''⟩

theorem fuelled : Fuelled t fun n _ x P => Persists t n x P where
  pure := .pure
  bind := .bind
  read same := .get_bind fun m t' ht' => by rw [← same m t'.linearized, ← ht'.records]
  step zero hx n := by
    cases n with
    | zero => exact .zero zero
    | succ n => exact .step (hx n)

theorem ite {c : Prop} [Decidable c] (hx : c → Persists t n x P) (hy : ¬ c → Persists t n y P) :
    Persists t n (fun m => if c then x m else y m) P := fuelled.ite hx hy

end Persists

end SymM

namespace SymbolTable

variable (t : SymbolTable) (U : SymbolId → Prop)

/-- Types over the symbols in `U` without variables and binders, in which no constructor is left
without arguments. -/
inductive Tame : Ty → Prop where
  | noType : Tame .noType
  | noPrefix : Tame .noPrefix
  | error : Tame .error
  | wildcard : Tame .wildcard
  | dangling (key : Nat) : Tame (.dangling key)
  | const {v : Constant} (widened : Tame (Known.constantType v)) : Tame (.const v)
  | this {s : SymbolId} (named : U s) (self : Tame (t.typeRefOf s)) : Tame (.this s)
  | single {pre : Ty} {s : SymbolId} (path : Tame pre) (named : U s) : Tame (.single pre s)
  | ref {pre : Ty} {s : SymbolId} {args : List Ty} (path : Tame pre) (named : U s)
      (each : ∀ a ∈ args, Tame a) (applied : args = [] → t.tparams s = []) : Tame (.ref pre s args)
  | refined {parents : List Ty} {cls : SymbolId} (named : U cls)
    (each : ∀ p ∈ parents, Tame p) : Tame (.refined parents [] cls)
  | annotated {as : List SymbolId} {body : Ty} (inner : Tame body) : Tame (.annotated as body)
  | bounds {lo hi : Ty} (lower : Tame lo) (upper : Tame hi) : Tame (.bounds lo hi)
  | nullary {result : Ty} (inner : Tame result) : Tame (.nullary result)
  | notNull {body : Ty} (inner : Tame body) : Tame (.notNull body)

/-- What the symbols in `U` are declared with is tame: infos, among them right-hand sides of
aliases, parents and bounds. -/
structure TameDeclarations : Prop where
  info {s : SymbolId} : U s → t.Tame U (t.info s)
  parents {s : SymbolId} : U s → ∀ p ∈ (t.get s).parents, t.Tame U p
  bounds {s : SymbolId} : U s → (t.get s).isAbstractType = true →
    t.Tame U (t.boundsOf s).1 ∧ t.Tame U (t.boundsOf s).2

variable {t U}

theorem Tame.not_isRaw (h : t.Tame U ty) : t.isRaw ty = false := by
  cases h with
  | @ref pre s args _ _ _ applied =>
    cases args with
    | nil =>
      have none : (t.get s).tparams = [] := applied rfl
      simp [isRaw, none]
    | cons => simp [isRaw]
  | _ => rfl

theorem Tame.withoutAnnotations (h : t.Tame U ty) : t.Tame U ty.withoutAnnotations := by
  induction h with
  | annotated _ ih => exact ih
  | _ =>
    rw [Ty.withoutAnnotations]
    · constructor <;> assumption
    · intro _ _ h
      cases h

theorem Computed.isRaw_eq {t' : SymbolTable} (h : t.Computed t')
    (ty : Ty) : t'.isRaw ty = t.isRaw ty := by
  cases ty with
  | ref => rw [isRaw, isRaw, h.get_eq]
  | _ => rfl

end SymbolTable

open SymM SymbolTable

variable {t : SymbolTable} {U : SymbolId → Prop} {n : Nat}

theorem SymbolTable.Tame.parts (h : t.Tame U ty) : ∀ c ∈ ty.parts, t.Tame U c := by
  cases h with
  | ref path _ each _ => exact List.forall_mem_cons.2 ⟨path, each⟩
  | refined _ each => exact each
  | bounds lower upper => exact List.forall_mem_cons.2 ⟨lower, List.forall_mem_singleton.2 upper⟩
  | single inner | annotated inner | nullary inner | notNull inner =>
    exact List.forall_mem_singleton.2 inner
  | _ => nofun

theorem SymbolTable.Tame.withParts {cs : List Ty} (h : t.Tame U ty)
    (hcs : List.Forall₂ (Becomes (t.Tame U)) ty.parts cs) : t.Tame U (ty.withParts cs) := by
  have each : ∀ {cs cs'}, List.Forall₂ (Becomes (t.Tame U)) cs cs' → ∀ c ∈ cs', t.Tame U c :=
    fun h c mem =>
    (exists_of_forall₂ h mem).elim fun _ h => h.2.1
  cases h with
  | ref _ named _ applied =>
    obtain _ | ⟨path, rest⟩ := hcs
    refine .ref path.1 named (each rest) fun none => applied (List.eq_nil_of_length_eq_zero ?_)
    rw [rest.length_eq, none]
    rfl
  | refined named _ => exact .refined named (each hcs)
  | single _ named =>
    obtain _ | ⟨path, _ | _⟩ := hcs
    exact .single path.1 named
  | bounds =>
    obtain _ | ⟨lower, _ | ⟨upper, _ | _⟩⟩ := hcs
    exact .bounds lower.1 upper.1
  | annotated =>
    obtain _ | ⟨inner, _ | _⟩ := hcs
    rw [Ty.withParts, Ty.annotate]
    split
    · exact inner.1
    · exact .annotated inner.1
  | nullary | notNull =>
    obtain _ | ⟨inner, _ | _⟩ := hcs
    constructor
    exact inner.1
  | _ =>
    obtain _ | _ := hcs
    constructor <;> assumption

theorem SymbolTable.TameDeclarations.family (closed : t.TameDeclarations U) :
    Family t (t.Tame U) where
  binders h := by cases h <;> rfl
  noExist := nofun
  noPoly := nofun
  noType := .noType
  parts := .parts
  rebuilt := .withParts
  applied h ne each := by
    cases h with
    | ref path named _ _ => exact .ref path named each fun none => absurd none ne
  const h := by
    cases h with
    | const widened => exact widened
  self h := by
    cases h with
    | this _ self => exact self
  refinement h _ := by
    cases h with
    | this named _ => exact closed.info named
  info h := by
    obtain h | ⟨_, h⟩ := h
    · cases h with
      | single _ named => exact closed.info named
    · cases h with
      | ref _ named _ _ => exact closed.info named
  parents h := by
    cases h with
    | ref _ named _ _ => exact closed.parents named
  bounds h abstract := by
    cases h with
    | ref _ named _ _ => exact closed.bounds named abstract

theorem SymM.isNonBottomSubClass_persists (layered : t.Layered) (c d : SymbolId) :
    Persists t n (fun _ => isNonBottomSubClass c d) fun _ => True := by
  unfold isNonBottomSubClass
  refine .ite (fun _ => .pure trivial) fun _ => ?_
  refine Persists.bind (.of_gives (baseClasses_gives fun _ cs chain => ?_) trivial)
    fun _ (_ : True) => .pure trivial
  exact layered _ (chain.imp fun _ _ step => step.1)

variable (closed : t.TameDeclarations U) (layered : t.Layered)
include closed layered

theorem asSeenFrom_persists (owner : SymbolId) (h : t.Tame U ty) (hpre : t.Tame U pre) :
    Persists t n (fun m => asSeenFrom m ty pre owner) (t.Tame U) := by
  induction n generalizing ty pre owner with
  | zero => exact .zero fun t' => ⟨_, t', rfl⟩
  | succ n ih =>
    refine .step (closed.family.asSeenFrom_step Persists.fuelled h hpre fun _ _ _ => ?_)
    exact closed.family.baseTypeUpTo Persists.fuelled (fun selects hty =>
      ih _ hty (closed.family.path selects)) (isNonBottomSubClass_persists layered) owner _ hpre

theorem sees_persistently {ty pre : Ty} {s : SymbolId} (selects : Selects (t.Tame U) pre s)
    (h : t.Tame U ty) : Persists t n (fun m => asSeenFrom m ty pre (t.get s).owner) (t.Tame U) :=
  asSeenFrom_persists closed layered _ h (closed.family.path selects)

/-! ## Normal forms -/

theorem dealias_persists (h : t.Tame U ty) : Persists t n (fun m => dealias m ty) (t.Tame U) :=
  closed.family.dealias Persists.fuelled (sees_persistently closed layered) _ h

theorem underlying_persists (h : t.Tame U ty) : Persists t n (fun m => underlying m ty)
    (t.Tame U) :=
  closed.family.underlying Persists.fuelled (sees_persistently closed layered) h

/-- No constructor is without arguments, so nothing becomes a type lambda. -/
theorem normalize_persists (h : t.Tame U ty) : Persists t n (fun m => normalize m ty)
    (t.Tame U) := by
  have complete : ∀ {pre s}, t.Tame U (.ref pre s []) → (t.get s).tparams = [] := by
    intro pre s h
    cases h with
    | ref _ _ _ applied => exact applied rfl
  refine closed.family.normalizeUpTo Persists.fuelled
    (sees_persistently closed layered) id (fun h => ?_) (fun h hbody => ?_) _ h
  · rw [complete h]
    exact h
  · rw [complete h]
    exact hbody

theorem expand_persists (h : t.Tame U ty) : Persists t n (fun m => expand m ty) (t.Tame U) := by
  unfold expand
  refine .get_bind (fun _ t' ht' => by rw [ht'.isRaw_eq])
    (.ite (fun raw => ?_) fun _ => normalize_persists closed layered h)
  rw [h.not_isRaw] at raw
  cases raw

theorem followPathUpTo_persists (k : Nat) (h : t.Tame U ty) :
    Persists t n (fun m => followPathUpTo m k ty) (t.Tame U) := by
  induction k generalizing ty with
  | zero => exact .pure h
  | succ k ih =>
    unfold followPathUpTo
    refine (underlying_persists closed layered h).bind fun under hunder => ?_
    refine (dealias_persists closed layered hunder).bind fun next hnext => ?_
    exact .ite (fun _ => .pure h) fun _ => ih hnext

theorem typeSymbol_persists (h : t.Tame U ty) : Persists t n (fun m => typeSymbol m ty) fun _ =>
    True :=
  closed.family.typeSymbolUpTo Persists.fuelled (sees_persistently closed layered)
    id .inl (normalize_persists closed layered) _ h

end Conformance

import Conformance.Proofs.Classes.References

/-! # Class types, paths and constants

A path leads to its declared type, and on to that one's declared type while these are singleton
types themselves. Equivalence of singleton types follows both sides, so many steps at a time, until
they meet; equivalence of references compares arguments; and a module is equivalent to its class.
`Equated` is what comes of this.

Conformance of equated types comes down to pairs of arguments by their variances. Two kinds of pairs
stand apart there. A constant does not conform to a path that leads to it, unless it is `null` and
the number of steps is right; and a module conforms to its class through its declared type. -/

namespace Conformance

variable {R : Ty → Ty → Prop}

namespace SymbolTable

variable (t : SymbolTable)

/-- Types without variables: classes applied to all their arguments, paths of packages,
constants. -/
inductive Ground : Ty → Prop where
  | ref {pre : Ty} {c : SymbolId} {args : List Ty} (rigid : t.IsRigid pre)
      (static : t.IsStaticClass c) (arity : args.length = (t.tparams c).length)
      (ground : ∀ a ∈ args, Ground a) : Ground (.ref pre c args)
  | this {c : SymbolId} (isClass : (t.get c).isClass = true)
      (notRefinement : (t.get c).isRefinementClass = false) : Ground (.this c)
  | single {pre : Ty} {x : SymbolId} (rigid : t.IsRigid pre) (owned : t.IsPackage (t.owner x)) :
      Ground (.single pre x)
  | const (v : Constant) : Ground (.const v)

/-- The declared type of a value or module. -/
def declared (x : SymbolId) : Ty :=
  match t.info x with
  | .nullary result => result
  | info => info

/-- A plain table with values and modules. Their declared types may be any; singleton types among
them are paths of the table. -/
structure Grounded : Prop where
  plain : t.Plain
  aliases : ∀ s, (t.get s).isAliasType = true → s = Known.anyRef
  declared : ∀ x, t.IsPackage (t.owner x) → (t.declared x).isSingleton = true →
    t.Ground (t.declared x)
  constants : ∀ v, t.IsPlainClass (Known.constantClass v) ∧ t.tparams (Known.constantClass v) = []
  nothing_tparams : t.tparams Known.nothing = []

/-! ## Following paths -/

/-- The singleton type that a path is declared with, if it is another one. -/
def next? : Ty → Option Ty
  | .single pre x => if (t.declared x).isSingleton &&
    t.declared x != .single pre x then some (t.declared x) else none
  | _ => none

/-- Where at most `n` steps lead. -/
def pathAfter : Nat → Ty → Ty
  | 0, ty => ty
  | n + 1, ty =>
    match t.next? ty with
    | some ty' => pathAfter n ty'
    | none => ty

/-- `k` steps lead from one type to the other. -/
inductive Steps : Nat → Ty → Ty → Prop where
  | refl (ty : Ty) : Steps 0 ty ty
  | step {k : Nat} {a b c : Ty} : t.next? a = some b → Steps k b c → Steps (k + 1) a c

/-- One type, or two references to one value. -/
def Near (a b : Ty) : Prop := a = b ∨ ∃ pre pre' x, a = .single pre x ∧ b = .single pre' x

/-- Both sides followed, again and again while one of them moves, end near each other. -/
inductive Meets : Ty → Ty → Prop where
  | near {a b : Ty} : Near a b → Meets a b
  | ends {a b : Ty} : t.pathAfter Limits.aliasSteps a ≠ a ∨ t.pathAfter Limits.aliasSteps b ≠ b →
      Meets (t.pathAfter Limits.aliasSteps a) (t.pathAfter Limits.aliasSteps b) → Meets a b

/-- `c` is the class of the module `x`. -/
def IsModuleOf (x c : SymbolId) : Prop := (t.get c).isModuleClass = true ∧ (t.get c).companion = x

inductive Equated : Ty → Ty → Prop where
  | paths {a b : Ty} : a.isSingleton = true → b.isSingleton = true → t.Meets a b → Equated a b
  | refs {pre pre' : Ty} {c : SymbolId} {as bs : List Ty} : as.length = bs.length →
      (∀ (i : Nat) a b, as[i]? = some a → bs[i]? = some b → Equated a b) →
      Equated (.ref pre c as) (.ref pre' c bs)
  | moduleClass {pre pre' : Ty} {x c : SymbolId} :
    t.IsModuleOf x c → Equated (.single pre x) (.ref pre' c [])
  | classModule {pre pre' : Ty} {x c : SymbolId} :
    t.IsModuleOf x c → Equated (.ref pre' c []) (.single pre x)

/-! ## Pairs that stand apart -/

/-- Conformance of the two types asks for a pair in `R`: themselves, or arguments as the variances
demand. -/
inductive Demands (R : Ty → Ty → Prop) : Ty → Ty → Prop where
  | here {a b : Ty} : R a b → Demands R a b
  | co {pre pre' : Ty} {c p : SymbolId} {as bs : List Ty} {i : Nat} {a b : Ty} :
      (t.tparams c)[i]? = some p → as[i]? = some a → bs[i]? = some b → (t.get p).variance ≠
      .contravariant → Demands R a b → Demands R (.ref pre c as) (.ref pre' c bs)
  | contra {pre pre' : Ty} {c p : SymbolId} {as bs : List Ty}
      {i : Nat} {a b : Ty} : (t.tparams c)[i]? = some p → as[i]? = some a → bs[i]? = some b →
      (t.get p).variance ≠ .covariant → Demands R b a → Demands R (.ref pre c as) (.ref pre' c bs)

/-- A constant other than `null` and a path to it, or `null` and a path to it of a multiple of the
steps that are taken at a time. -/
def Literal : Ty → Ty → Prop
  | .const v, .single pre x => ∃ k, t.Steps k (.single pre x)
    (.const v) ∧ (v ≠ .null ∨ Limits.aliasSteps ∣ k)
  | _, _ => False

/-- A module whose declared type is not its class, and its class. -/
def Redeclared : Ty → Ty → Prop
  | .single _ x, .ref _ c [] => t.IsModuleOf x c ∧ ∀ pre, t.declared x ≠ .ref pre c []
  | _, _ => False

variable {t}

/-! ## Steps -/

section Steps

variable {a b c : Ty} {k k' n : Nat} {v v' : Constant}

theorem pathAfter_const (n : Nat) : t.pathAfter n (.const v) = .const v := by
  cases n <;> rfl

theorem Steps.trans (h : t.Steps k a b) (h' : t.Steps k' b c) : t.Steps (k + k') a c := by
  induction h with
  | refl => rwa [Nat.zero_add]
  | step next _ ih =>
    rw [Nat.add_right_comm]
    exact .step next (ih h')

theorem exists_steps_pathAfter (n : Nat) (a : Ty) : ∃ k, t.Steps k a (t.pathAfter n a) := by
  induction n generalizing a with
  | zero => exact ⟨0, .refl a⟩
  | succ n ih =>
    unfold pathAfter
    cases next : t.next? a with
    | none => exact ⟨0, .refl a⟩
    | some b =>
      obtain ⟨k, steps⟩ := ih b
      exact ⟨k + 1, .step next steps⟩

/-- A constant leads nowhere, so there is one way to it. -/
theorem Steps.unique (h : t.Steps k a (.const v)) (h' : t.Steps k' a (.const v')) :
    k = k' ∧ v = v' := by
  generalize eq : Ty.const v = b at h
  induction h generalizing k' with
  | refl =>
    subst eq
    cases h' with
    | refl => exact ⟨rfl, rfl⟩
    | step next _ => cases next
  | step next _ ih =>
    cases h' with
    | refl => cases next
    | step next' rest' =>
      obtain rfl := Option.some.inj (next.symm.trans next')
      obtain ⟨rfl, rfl⟩ := ih rest' eq
      exact ⟨rfl, rfl⟩

theorem next?_eq_some (h : t.next? a = some b) :
    ∃ pre x, a = .single pre x ∧ b = t.declared x ∧ b.isSingleton = true ∧ b ≠ a := by
  cases a with
  | single pre x =>
    simp only [next?] at h
    split at h
    · rename_i cond
      cases h
      simp only [Bool.and_eq_true, bne_iff_ne] at cond
      exact ⟨pre, x, rfl, rfl, cond⟩
    · cases h
  | _ => cases h

theorem Steps.isSingleton (h : t.Steps k a (.const v)) : a.isSingleton = true := by
  cases h with
  | refl => rfl
  | step next _ =>
    obtain ⟨pre, x, rfl, -⟩ := next?_eq_some next
    rfl

theorem Near.symm (h : Near a b) : Near b a := by
  obtain rfl | ⟨pre, pre', x, rfl, rfl⟩ := h
  · exact .inl rfl
  · exact .inr ⟨pre', pre, x, rfl, rfl⟩

theorem Meets.symm (h : t.Meets a b) : t.Meets b a := by
  induction h with
  | near near => exact .near near.symm
  | ends moved _ ih => exact .ends moved.symm ih

theorem Meets.steps (h : t.Meets a (.const v)) : ∃ k, t.Steps k a (.const v) := by
  generalize eq : Ty.const v = b at h
  induction h with
  | near near =>
    subst eq
    obtain rfl | ⟨_, _, _, -, eq⟩ := near
    · exact ⟨0, .refl _⟩
    · cases eq
  | @ends a b _ _ ih =>
    subst eq
    rw [pathAfter_const] at ih
    obtain ⟨k, steps⟩ := t.exists_steps_pathAfter Limits.aliasSteps a
    obtain ⟨k', steps'⟩ := ih rfl
    exact ⟨k + k', steps.trans steps'⟩

end Steps

/-! ## Equated types -/

section Equated

variable {a b : Ty} {pre pre' : Ty} {c d x : SymbolId} {as bs args : List Ty} {n : Nat}

theorem Ground.arity (h : t.Ground (.ref pre c args)) : args.length = (t.tparams c).length := by
  cases h with
  | ref _ _ arity _ => exact arity

theorem Ground.static (h : t.Ground (.ref pre c args)) : t.IsStaticClass c := by
  cases h with
  | ref _ static _ _ => exact static

theorem Ground.rigid (h : t.Ground (.ref pre c args)) : t.IsRigid pre := by
  cases h with
  | ref rigid _ _ _ => exact rigid

theorem Ground.arg (h : t.Ground (.ref pre c args)) (ha : a ∈ args) : t.Ground a := by
  cases h with
  | ref _ _ _ ground => exact ground a ha

theorem Ground.owned (h : t.Ground (.single pre x)) : t.IsPackage (t.owner x) := by
  cases h with
  | single _ owned => exact owned

theorem Ground.single_rigid (h : t.Ground (.single pre x)) : t.IsRigid pre := by
  cases h with
  | single rigid _ => exact rigid

theorem Ground.isPermissive (h : t.Ground a) : a.isPermissive = false := by
  cases h <;> rfl

theorem Ground.isPresent (h : t.Ground a) : a.isPresent = true := by
  cases h <;> rfl

theorem Ground.ne_noPrefix (h : t.Ground a) : a ≠ .noPrefix := by
  rintro rfl
  cases h

theorem Ground.not_higherKinded {t' : SymbolTable} (h : t.Ground a) (ht' : t.Remembers t') :
    t'.isHigherKinded a = false := by
  cases h with
  | ref _ _ arity _ => exact ht'.not_higherKinded arity
  | this | single | const => rfl

theorem Ground.pathAfter (ht : t.Grounded) (n : Nat)
    (h : t.Ground a) (single : a.isSingleton = true) :
    t.Ground (t.pathAfter n a) ∧ (t.pathAfter n a).isSingleton = true := by
  induction n generalizing a with
  | zero => exact ⟨h, single⟩
  | succ n ih =>
    unfold SymbolTable.pathAfter
    cases next : t.next? a with
    | none => exact ⟨h, single⟩
    | some b =>
      obtain ⟨pre, x, rfl, rfl, isSingleton, -⟩ := next?_eq_some next
      exact ih (ht.declared x h.owned isSingleton) isSingleton

theorem Ground.equated_refl (h : t.Ground a) : t.Equated a a := by
  induction h with
  | ref _ _ _ _ ih =>
    refine .refs rfl fun i a b ha hb => ?_
    obtain rfl := Option.some.inj (ha.symm.trans hb)
    exact ih a (List.mem_of_getElem? ha)
  | this | single | const => exact .paths rfl rfl (.near (.inl rfl))

theorem Equated.symm (h : t.Equated a b) : t.Equated b a := by
  induction h with
  | paths ha hb meets => exact .paths hb ha meets.symm
  | refs len _ ih => exact .refs len.symm fun i a b ha hb => ih i b a hb ha
  | moduleClass module => exact .classModule module
  | classModule module => exact .moduleClass module

theorem Equated.meets (h : t.Equated a b) (ha : a.isSingleton = true)
    (hb : b.isSingleton = true) : t.Meets a b := by
  cases h with
  | paths _ _ meets => exact meets
  | refs => cases ha
  | moduleClass => cases hb
  | classModule => cases ha

theorem Demands.ne (hR : ∀ a b, R a b → a ≠ b) (h : t.Demands R a b) : a ≠ b := by
  induction h with
  | here related => exact hR _ _ related
  | co _ ha hb _ _ ih =>
    rintro ⟨⟩
    exact ih (Option.some.inj (ha.symm.trans hb))
  | contra _ ha hb _ _ ih =>
    rintro ⟨⟩
    exact ih (Option.some.inj (hb.symm.trans ha))

theorem Literal.shape (h : t.Literal a b) : ∃ v pre x, a = .const v ∧ b = .single pre x := by
  unfold Literal at h
  split at h
  · exact ⟨_, _, _, rfl, rfl⟩
  · exact h.elim

theorem Literal.ne (h : t.Literal a b) : a ≠ b := by
  obtain ⟨v, pre, x, rfl, rfl⟩ := h.shape
  exact fun h => nomatch h

/-- The steps to a constant are what they are, so a path to it says whether the pair stands
apart. -/
theorem literal_iff {k : Nat} {v : Constant} (steps : t.Steps k (.single pre x) (.const v)) :
    t.Literal (.const v) (.single pre x) ↔ v ≠ .null ∨ Limits.aliasSteps ∣ k := by
  constructor
  · rintro ⟨k', steps', apart⟩
    obtain ⟨rfl, -⟩ := steps.unique steps'
    exact apart
  · exact fun apart => ⟨k, steps, apart⟩

/-- No pair within these stands apart but themselves. -/
theorem demands_iff_here (h : a.isSingleton = true ∨ b.isSingleton = true) :
    t.Demands R a b ↔ R a b := by
  refine ⟨fun demands => ?_, .here⟩
  cases demands with
  | here related => exact related
  | co | contra => obtain h | h := h <;> cases h

/-- References to one class ask for what their arguments ask for. -/
theorem pointwise_not_demands (len : as.length = bs.length)
    (here : ¬ R (.ref pre c as) (.ref pre' c bs)) :
    t.Pointwise (fun a b => ¬ t.Demands R a b) (t.tparams c) as bs ↔
      ¬ t.Demands R (.ref pre c as) (.ref pre' c bs) := by
  constructor
  · intro args demands
    cases demands with
    | here related => exact here related
    | co hp ha hb hvar demands => exact args.co _ _ _ _ hp ha hb hvar demands
    | contra hp ha hb hvar demands => exact args.contra _ _ _ _ hp ha hb hvar demands
  · intro free
    exact ⟨len, fun _ _ _ _ hp ha hb hvar demands => free (.co hp ha hb hvar demands),
      fun _ _ _ _ hp ha hb hvar demands => free (.contra hp ha hb hvar demands)⟩

end Equated

end SymbolTable

/-! ## Views of ground types

What a path stands for is its declared type, following a path is `pathAfter`, and widening one that
leads to a constant takes so many steps and no more. Ground types are their own expansions. -/

open SymbolTable SymM

variable {t : SymbolTable} {fuel k n : Nat} {pre ty : Ty} {c x : SymbolId} {args : List Ty}

theorem underlying_single_run {t' : SymbolTable} (ht' : t.Remembers t')
    (owned : t.IsPackage (t.owner x)) : underlying (fuel + 1)
    (.single pre x) t' = .ok (t.declared x) t' := by
  have package : (t'.get (t'.get x).owner).isPackageClass = true := by
    rw [ht'.get_eq, ht'.get_eq]
    exact owned.isPackageClass
  have info : (t'.get x).info = t.info x := by rw [ht'.get_eq, SymbolTable.info]
  show (asSeenFrom (fuel + 1) (t'.get x).info pre (t'.get x).owner >>= _) t' = _
  rw [CheckM.bind_ok (asSeenFrom_of_package package ..), info, declared]
  cases t.info x <;> rfl

theorem underlying_single (owned : t.IsPackage (t.owner x)) :
    Yields t (0 < fuel) (underlying fuel (.single pre x)) (· = t.declared x) := by
  cases fuel with
  | zero =>
    exact (record_yields x).bind fun r _ => .bind (.fail (by simp)) fun _ h => (h : False).elim
  | succ fuel =>
    intro t' ht'
    rw [underlying_single_run ht' owned]
    exact ⟨ht', rfl⟩

theorem underlying_this (notRefinement : (t.get c).isRefinementClass = false) :
    Yields t (0 < fuel) (underlying fuel (.this c)) fun ty => ∃ pre args, ty = .ref pre c args := by
  refine (record_yields c).bind fun r hr => ?_
  rw [hr, notRefinement]
  exact .bind .get fun t' _ => .pure ⟨_, _, rfl⟩

theorem underlying_const (v : Constant) :
    Yields t (0 < fuel) (underlying fuel (.const v)) (· = Known.constantType v) := .pure rfl

theorem constantType_eq (v : Constant) : ∃ pkg, Known.constantType v = .ref (.this pkg)
    (Known.constantClass v) [] := by
  cases v <;> exact ⟨_, rfl⟩

theorem SymbolTable.Grounded.ground_constantType (ht : t.Grounded)
    (v : Constant) : t.Ground (Known.constantType v) := by
  obtain ⟨plain, tparams⟩ := ht.constants v
  obtain ⟨pkg, eq⟩ := constantType_eq v
  rw [eq]
  exact .ref trivial plain.static (by simp [tparams]) (by simp)

theorem dealias_singleton (isSingleton : ty.isSingleton = true) :
    Yields t (0 < fuel) (dealias fuel ty) (· = ty) := by
  cases ty with
  | this | single | const => exact .pure rfl
  | _ => cases isSingleton

theorem dealias_not_singleton (ht : t.Grounded) (notSingleton : ty.isSingleton = false) :
    Yields t (0 < fuel) (dealias fuel ty) (·.isSingleton = false) := by
  cases ty with
  | ref pre s args =>
    by_cases isAlias : (t.get s).isAliasType = true
    · obtain rfl := ht.aliases s isAlias
      cases args with
      | nil =>
        refine (anyRef_dealias ht.plain fuel pre).imp fun ty' h => ?_
        rw [h]
        rfl
      | cons a as =>
        show Yields t _ (View.dealias fuel _ (127 + 1) _) _
        unfold View.dealias
        refine (record_yields _).bind fun r hr => ?_
        have tparams : r.tparams = [] := hr ▸ ht.plain.anyRef_tparams
        rw [if_pos (by simp [tparams])]
        exact .pure rfl
    · show Yields t _ (View.dealias fuel _ (127 + 1) _) _
      unfold View.dealias
      refine (record_yields s).bind fun r hr => ?_
      rw [if_pos (by simp [hr, isAlias])]
      exact .pure rfl
  | _ => exact .pure notSingleton

/-- A path stays where what it stands for is not a singleton type. -/
theorem followPath_stays (ht : t.Grounded) {wide : Ty}
    {further : Ty → SymM Ty} (notSingleton : wide.isSingleton = false) : Yields t (0 < fuel) (do
      let next ← dealias fuel wide
      if next = ty || !next.isSingleton then return ty
      further next) (· = ty) := by
  refine (dealias_not_singleton ht notSingleton).bind fun next hnext => ?_
  rw [if_pos (by simp [hnext])]
  exact .pure rfl

theorem followPathUpTo_yields (ht : t.Grounded) (n : Nat)
    (h : t.Ground ty) (single : ty.isSingleton = true) :
    Yields t (0 < fuel) (followPathUpTo fuel n ty) (· = t.pathAfter n ty) := by
  induction n generalizing ty with
  | zero => exact .pure rfl
  | succ n ih =>
    unfold followPathUpTo pathAfter
    cases h with
    | ref => cases single
    | this isClass notRefinement =>
      refine (underlying_this notRefinement).bind fun wide hwide => ?_
      obtain ⟨_, _, rfl⟩ := hwide
      exact followPath_stays ht rfl
    | const v =>
      refine (underlying_const v).bind fun wide hwide => ?_
      obtain ⟨pkg, eq⟩ := constantType_eq v
      rw [hwide, eq]
      exact followPath_stays ht rfl
    | @single pre x rigid owned =>
      refine (underlying_single owned).bind fun wide hwide => ?_
      subst hwide
      by_cases isSingleton : (t.declared x).isSingleton = true
      · refine (dealias_singleton isSingleton).bind fun next hnext => ?_
        subst hnext
        by_cases same : t.declared x = .single pre x
        · simp only [next?, same, decide_true, Bool.true_or,
            if_true, bne_self_eq_false, Bool.and_false, Bool.false_eq_true, if_false]
          exact .pure rfl
        · simp only [next?, same, isSingleton, decide_false, Bool.not_true,
            Bool.or_self, Bool.false_eq_true, if_false, bne_iff_ne.2 same, Bool.and_self, if_true]
          exact ih (ht.declared x owned isSingleton) isSingleton
      · simp only [next?, isSingleton, Bool.false_and, Bool.false_eq_true, if_false]
        exact followPath_stays ht (by simpa using isSingleton)

/-- Widening takes at most `n` steps, the last one from the constant to its class. -/
theorem widenUpTo_yields (ht : t.Grounded) {v : Constant}
    (h : t.Ground ty) (steps : t.Steps k ty (.const v))
    (n : Nat) : Yields t (0 < fuel) (widenUpTo fuel n ty) fun wide =>
      k < n ∧ wide = Known.constantType v ∨ n ≤ k ∧
        t.Ground wide ∧ t.Steps (k - n) wide (.const v) := by
  induction n generalizing ty k with
  | zero => exact .pure (.inr ⟨Nat.zero_le k, h, steps⟩)
  | succ n ih =>
    unfold widenUpTo
    cases steps with
    | refl =>
      refine (underlying_const v).bind fun wide hwide => ?_
      obtain ⟨pkg, eq⟩ := constantType_eq v
      have stops : widenUpTo fuel n wide = Pure.pure wide := by
        rw [hwide, eq]
        cases n <;> rfl
      rw [stops]
      exact .pure (.inl ⟨Nat.succ_pos n, hwide⟩)
    | step next rest =>
      obtain ⟨pre, x, rfl, rfl, isSingleton, -⟩ := next?_eq_some next
      refine (underlying_single h.owned).bind fun wide hwide => ?_
      subst hwide
      refine (ih (ht.declared x h.owned isSingleton) rest).imp fun wide hwide => ?_
      rw [Nat.add_sub_add_right, Nat.add_lt_add_iff_right, Nat.add_le_add_iff_right]
      exact hwide

/-- Ground types are applied to all their arguments, and no class is an alias. -/
theorem expand_yields (h : t.Ground ty) : Yields t (0 < fuel) (expand fuel ty) (· = ty) := by
  refine Attains.bind .get fun t' ht' => ?_
  cases h with
  | this | single | const => exact .pure rfl
  | @ref pre c args rigid static arity ground =>
    rw [ht'.not_raw arity, if_neg Bool.false_ne_true]
    exact normalizeUpTo_applied arity static.not_alias _

end Conformance

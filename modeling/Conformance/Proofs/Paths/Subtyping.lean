import Conformance.Proofs.Paths.Equivalence

/-! # Conformance of equated types

A path on the left is replaced by its declared type, a constant by its class, and references to one
class are compared by their arguments. So a path climbs to the constant it leads to; a constant
other than `null` conforms to no path; and `null` conforms where widening the path, so many steps at
a time, ends with `Null` and not with the constant. -/

namespace Conformance

open SymbolTable SymM CheckM

variable {t : SymbolTable} {n k : Nat} {cfg : Config} {q : Queries} {ok : Prop} {l r pre pre' : Ty}
  {c x : SymbolId} {as bs : List Ty} {v : Constant} {depth : Depth} {A D : Prop} {s : CheckState}

/-! ## The last pass -/

/-- Two paths or two constants conform if they are equivalent; other types go through the passes. -/
theorem subStep_ground_run (hs : t.Remembers s.table)
    (hl : t.Ground l) (hr : t.Ground r) (ne : l ≠ r) : subStep cfg q l r depth s =
      (if l.isSingletonRef && r.isSingletonRef || l.isConstant && r.isConstant then q.same l r
        else firstPass cfg q l r depth) s := by
  unfold subStep
  simp only [ne, decide_false, hl.isPermissive, hr.isPermissive, hl.isPresent, hr.isPresent,
    hl.ne_noPrefix, hr.ne_noPrefix, Bool.or_self, Bool.not_true, Bool.false_eq_true, if_false]
  split
  · rfl
  · rw [readTable_bind]
    simp only [hl.not_higherKinded hs, hr.not_higherKinded hs,
      Bool.or_self, Bool.false_eq_true, if_false]

/-- With a path or a constant on one side, the last pass decides. -/
theorem subStep_path_run (hs : t.Remembers s.table) (hl : t.Ground l) (hr : t.Ground r) (ne : l ≠ r)
    (path : l.isSingleton = true ∨ r.isSingleton = true)
    (apart : (l.isSingletonRef && r.isSingletonRef || l.isConstant && r.isConstant) = false) :
    subStep cfg q l r depth s = finalPass cfg q l r depth s := by
  rw [subStep_ground_run hs hl hr ne, if_neg (by simp [apart])]
  cases hr with
  | ref _ static arity _ =>
    cases hl with
    | ref => obtain path | path := path <;> cases path
    | this | single | const => exact rightRef_run hs static arity
  | this | single | const => cases hl <;> rfl

theorem finalPass_single_run (hs : t.Remembers s.table) (fueled : 0 < cfg.fuel)
    (owned : t.IsPackage (t.owner x)) : finalPass cfg q (.single pre x) r .unlimited s =
      (if t.declared x = .single pre x then pure false else q.sub (t.declared x) r .unlimited)
        s := by
  obtain ⟨fuel, eq⟩ := Nat.exists_eq_add_of_lt fueled
  have stands : onTable (underlying cfg.fuel (.single pre x)) s = .ok (t.declared x) s := by
    rw [onTable, EStateM.run, eq, Nat.zero_add, underlying_single_run hs owned]
  unfold finalPass
  simp only [Depth.isExhausted, Bool.false_eq_true]
  exact (bind_ok stands).trans (by split <;> rfl)

theorem subStep_single_run (hs : t.Remembers s.table) (fueled : 0 < cfg.fuel)
    (hl : t.Ground (.single pre x)) (hr : t.Ground r) (notPath : r.isSingletonRef = false) :
    subStep cfg q (.single pre x) r .unlimited s =
      (if t.declared x = .single pre x then pure false else q.sub (t.declared x) r .unlimited)
        s := by
  have ne : Ty.single pre x ≠ r := by
    rintro rfl
    cases notPath
  have apart : (Ty.isSingletonRef (.single pre x) && r.isSingletonRef ||
      Ty.isConstant (.single pre x) && r.isConstant) = false := by
    rw [notPath]
    rfl
  exact (subStep_path_run hs hl hr ne (.inl rfl) apart).trans
    (finalPass_single_run hs fueled hl.owned)

theorem finalPass_const_run (s : CheckState) :
    finalPass cfg q (.const v) r .unlimited s = q.sub (Known.constantType v) r .unlimited s := by
  have wider : Known.constantType v ≠ .const v := by
    obtain ⟨pkg, eq⟩ := constantType_eq v
    rw [eq]
    exact fun h => nomatch h
  exact congrFun (if_neg wider) s

/-! ## Classes -/

theorem baseType_self {fuel : Nat} : Yields t ok (baseType fuel (.ref pre c as) c)
    (· = .ref pre c as) := by
  simp only [baseType, View.baseType, View.baseTypeUpTo, beq_self_eq_true, if_true]
  exact .pure rfl

theorem leftRef_self_decided (ht : t.Grounded) (hc : t.IsStaticClass c)
    (arity : as.length = (t.tparams c).length) (bottom : c = Known.nothing ∨ c = Known.null → A) :
    Decided t n ok (leftRef cfg q pre c as (.ref pre' c bs) depth) A False := by
  by_cases nothing : c = Known.nothing
  · simp only [leftRef, nothing, beq_self_eq_true, if_true]
    exact .yes (bottom (.inl nothing))
  · by_cases null : c = Known.null
    · have notNothing : (c == Known.nothing) = false := by simpa using nothing
      have isNull : (c == Known.null) = true := by simpa using null
      simp only [leftRef, notNothing, isNull, Bool.false_eq_true, if_true, if_false]
      have plain : t.IsPlainClass c := null ▸ (ht.constants .null).1
      have admits : Settles t.Remembers n ok (CheckM.onTable (SymM.containsNull c))
        (· = true ↔ t.AdmitsNull c) (fun _ => True) :=
        .onTable (containsNull_yields ht.plain plain) (fun _ => trivial) fun _ _ => trivial
      exact admits.imp (fun _ _ _ => bottom (.inr null)) fun _ _ _ h => h.elim
    · refine Decided.imp (leftRef_decided_no hc arity nothing null (.inr ?_)) False.elim id
      exact fun _ _ h => nomatch h

theorem refsConform_self_decided (ht : t.Grounded)
    (hc : t.IsStaticClass c) (arity : as.length = (t.tparams c).length)
    (arity' : bs.length = (t.tparams c).length) (bottom : c = Known.nothing ∨ c = Known.null → A)
    (args : Decided t n ok (subArgs q .unlimited as bs (t.tparams c)) A D) :
    Decided t n ok (refsConform cfg q pre c as pre' c bs .unlimited) A D := by
  unfold refsConform
  refine .readTable fun t' ht' => ?_
  refine .after (constructorConforms_self Remembers.get_eq hc.owned) fun b hb => ?_
  subst hb
  have tparams : t'.tparams c = t.tparams c := by rw [tparams, ht'.get_eq, tparams]
  simp only [if_true, tparams, argsConform, arity,
    arity', and_self, ht'.get_eq, hc.isClass, Depth.isExhausted, Bool.not_false]
  refine Decided.imp (D := D ∨ False) (args.or ?_) (fun h => h.elim id id) .inl
  refine .onTable baseType_self id fun base hbase => ?_
  simp only [hbase, bne_self_eq_false, Bool.false_and, Bool.false_eq_true, if_false]
  exact Settles.of_run (leftRef_self_decided ht hc arity bottom) fun _ hs =>
    rightRef_run hs hc arity'

/-- The class of a module conforms to the module's path. -/
theorem leftRef_module_decided (ht : t.Grounded) (hc : t.IsStaticClass c)
    (arity : as.length = (t.tparams c).length) (module : t.IsModuleOf x c)
    (owned : t.IsPackage (t.owner x)) : Decided t n
    ok (leftRef cfg q pre c as (.single pre' x) depth) True True := by
  have notNull : c ≠ Known.null := by
    rintro rfl
    exact Bool.false_ne_true ((ht.constants .null).1.not_module.symm.trans module.1)
  unfold leftRef
  simp only [beq_iff_eq, notNull, if_false]
  split
  · exact .yes trivial
  · refine .readTable fun t' ht' => ?_
    simp only [ht'.get_eq, hc.isClass, ht'.not_raw arity,
      module.1, module.2, if_true, Bool.false_eq_true, if_false]
    exact (sameEntity_self Remembers.get_eq owned).imp (fun _ _ _ => trivial) fun _ yes _ _ => yes

theorem subStep_self (ht : t.Grounded) (hc : t.IsStaticClass c) (tparams : t.tparams c = []) :
    Decided t n ok (subStep cfg q (.ref pre c []) (.ref pre' c []) .unlimited) True True := by
  by_cases same : Ty.ref pre c [] = .ref pre' c []
  · rw [same, subStep_refl]
    exact .yes trivial
  · have arity : ([] : List Ty).length = (t.tparams c).length := by simp [tparams]
    have args : Decided t n ok (subArgs q .unlimited [] [] (t.tparams c)) True True := by
      rw [tparams]
      exact .yes trivial
    exact Settles.of_run (refsConform_self_decided ht hc arity arity (fun _ => trivial) args)
      fun _ hs =>
      subStep_refs_run hs same arity arity

/-! ## Paths and constants -/

/-- What queries answer to the questions that equated types lead to: a path and the constant it
leads to, the class of a constant and such a path, two references to one class without arguments,
and equated types. -/
structure Queries.Relate (t : SymbolTable) (n : Nat) (ok : Prop) (q : Queries) : Prop where
  equate : q.Equate t n ok
  climbs : ∀ k l v, t.Ground l → t.Steps k l (.const v) →
    Decided t n ok (q.sub l (.const v) .unlimited) True True
  literal : ∀ k r v, t.Ground r → t.Steps k r (.const v) →
    Decided t n ok (q.sub (Known.constantType v) r .unlimited) (v = .null ∧ ¬ Limits.aliasSteps ∣ k)
      (v = .null ∧ ¬ Limits.aliasSteps ∣ k)
  self : ∀ pre pre' c, t.IsStaticClass c → t.tparams c = [] →
    Decided t n ok (q.sub (.ref pre c []) (.ref pre' c []) .unlimited) True True
  equated : ∀ l r, t.Ground l → t.Ground r → t.Equated l r → ¬ t.Demands t.Redeclared l r →
    Decided t n ok (q.sub l r .unlimited) (¬ t.Demands t.Literal l r) (¬ t.Demands t.Literal l r)

section Step

variable (ht : t.Grounded) (hq : q.Relate t n ok)
include ht hq

theorem subStep_equated_refs (hl : t.Ground (.ref pre c as)) (hr : t.Ground (.ref pre' c bs))
    (equated : t.Equated (.ref pre c as) (.ref pre' c bs))
    (declared : ¬ t.Demands t.Redeclared (.ref pre c as) (.ref pre' c bs)) :
    Decided t n ok (subStep cfg q (.ref pre c as) (.ref pre' c bs) .unlimited)
      (¬ t.Demands t.Literal (.ref pre c as) (.ref pre' c bs))
      (¬ t.Demands t.Literal (.ref pre c as) (.ref pre' c bs)) := by
  by_cases same : Ty.ref pre c as = .ref pre' c bs
  · rw [same, subStep_refl]
    exact .yes fun demands => demands.ne (fun _ _ => Literal.ne) rfl
  · have len : as.length = bs.length := hl.arity.trans hr.arity.symm
    have literals : t.Pointwise (fun a b => ¬ t.Demands t.Literal a b) (t.tparams c) as bs ↔
        ¬ t.Demands t.Literal (.ref pre c as) (.ref pre' c bs) := pointwise_not_demands len id
    have modules : t.Pointwise (fun a b => ¬ t.Demands t.Redeclared a b) (t.tparams c) as bs :=
      (pointwise_not_demands len id).2 declared
    have bottom : c = Known.nothing ∨ c = Known.null →
      ¬ t.Demands t.Literal (.ref pre c as) (.ref pre' c bs) := by
      intro bottom
      have tparams : t.tparams c = [] := by
        obtain rfl | rfl := bottom
        · exact ht.nothing_tparams
        · exact (ht.constants .null).2
      exact literals.1 ⟨len, by simp [tparams], by simp [tparams]⟩
    cases equated with
    | paths single => cases single
    | refs _ pairs =>
      refine Settles.of_run (refsConform_self_decided ht hl.static hl.arity hr.arity bottom ?_)
        fun s hs =>
        subStep_refs_run hs same hl.arity hr.arity
      refine (Decided.judged.subArgs ⟨len, fun i p a b hp ha hb hvar =>
        ?_, fun i p a b hp ha hb hvar => ?_⟩ hl.arity).imp literals.1 literals.2
      · exact hq.equated a b (hl.arg (List.mem_of_getElem? ha)) (hr.arg (List.mem_of_getElem? hb))
          (pairs i a b ha hb) (modules.co i p a b hp ha hb hvar)
      · exact hq.equated b a (hr.arg (List.mem_of_getElem? hb)) (hl.arg (List.mem_of_getElem? ha))
          (pairs i a b ha hb).symm (modules.contra i p a b hp ha hb hvar)

variable (fueled : 0 < cfg.fuel)
include fueled

theorem subStep_climbs (hl : t.Ground l) (steps : t.Steps k l (.const v)) :
    Decided t n ok (subStep cfg q l (.const v) .unlimited) True True := by
  cases steps with
  | refl =>
    rw [subStep_refl]
    exact .yes trivial
  | step next rest =>
    obtain ⟨pre, x, rfl, rfl, isSingleton, ne⟩ := next?_eq_some next
    have higher := hq.climbs _ _ v (ht.declared x hl.owned isSingleton) rest
    refine Settles.of_run higher fun s hs => ?_
    rw [subStep_single_run hs fueled hl (.const v) rfl, if_neg ne]

/-- `null` conforms to a path that leads to it if widening ends with its class. -/
theorem nullConforms_decided (hr : t.Ground r) (steps : t.Steps k r (.const .null)) :
    Decided t n ok (nullConforms cfg q Known.nullType r .unlimited) (¬ Limits.aliasSteps ∣ k)
      (¬ Limits.aliasSteps ∣ k) := by
  cases steps with
  | refl => exact .no fun odd => odd (Nat.dvd_zero _)
  | @step k _ b _ next rest =>
    have steps : t.Steps (k + 1) r (.const .null) := .step next rest
    obtain ⟨pre, x, rfl, rfl, isSingleton, -⟩ := next?_eq_some next
    unfold nullConforms
    refine .onTable (widenUpTo_yields ht hr steps Limits.aliasSteps)
      (fun _ => fueled) fun wide hwide => ?_
    obtain ⟨few, rfl⟩ | ⟨many, ground, onward⟩ := hwide
    · rw [if_neg (fun h => nomatch h)]
      obtain ⟨plain, tparams⟩ := ht.constants .null
      refine (hq.self _ _ _ plain.static tparams).imp (fun _ => ?_) fun _ => trivial
      simp only [Limits.aliasSteps] at few ⊢
      omega
    · have ne : wide ≠ .single pre x := by
        rintro rfl
        obtain ⟨eq, -⟩ := onward.unique steps
        simp only [Limits.aliasSteps] at eq many
        omega
      rw [if_neg ne]
      have again := hq.literal _ wide .null ground onward
      have same : Limits.aliasSteps ∣ k + 1 - Limits.aliasSteps ↔ Limits.aliasSteps ∣ k + 1 := by
        simp only [Limits.aliasSteps] at many ⊢
        omega
      rw [same] at again
      exact again.imp And.right fun odd => ⟨rfl, odd⟩

/-- The class of a constant conforms to a path to it only if it is `Null`. -/
theorem leftRef_literal_decided {pkg : SymbolId} (hr : t.Ground r) (steps : t.Steps k r (.const v))
    (eq : Known.constantType v = .ref (.this pkg) (Known.constantClass v) []) :
    Decided t n ok (leftRef cfg q (.this pkg) (Known.constantClass v) [] r .unlimited)
      (v = .null ∧ ¬ Limits.aliasSteps ∣ k) (v = .null ∧ ¬ Limits.aliasSteps ∣ k) := by
  by_cases null : v = .null
  · subst null
    cases eq
    exact (nullConforms_decided ht hq fueled hr steps).imp (fun h => ⟨rfl, h⟩) And.right
  · obtain ⟨plain, tparams⟩ := ht.constants v
    have notNothing : Known.constantClass v ≠ Known.nothing := by
      cases v <;> exact fun h => nomatch h
    have notNull : Known.constantClass v ≠ Known.null := by
      cases v <;> first | exact absurd rfl null | exact fun h => nomatch h
    refine Decided.imp (leftRef_decided_no plain.static
      (by simp [tparams]) notNothing notNull (.inl plain.not_module)) False.elim ?_
    exact fun h => null h.1

theorem subStep_literal (hr : t.Ground r) (steps : t.Steps k r (.const v)) : Decided
    t n ok (subStep cfg q (Known.constantType v) r .unlimited) (v = .null ∧ ¬ Limits.aliasSteps ∣ k)
      (v = .null ∧ ¬ Limits.aliasSteps ∣ k) := by
  have isSingleton := steps.isSingleton
  have hl := ht.ground_constantType v
  obtain ⟨pkg, eq⟩ := constantType_eq v
  rw [eq] at hl ⊢
  refine Settles.of_run (leftRef_literal_decided ht hq fueled hr steps eq) fun s hs => ?_
  refine subStep_path_run hs hl hr ?_ (.inr isSingleton) rfl
  rintro rfl
  cases isSingleton

/-- Paths and constants that meet: two paths or two constants are equivalent, a path climbs to its
constant, and a constant conforms as its class does. -/
theorem subStep_equated_paths (hl : t.Ground l) (hr : t.Ground r)
    (isSingleton : l.isSingleton = true) (isSingleton' : r.isSingleton = true)
    (meets : t.Meets l r) : Decided t n ok (subStep cfg q l r .unlimited)
    (¬ t.Literal l r) (¬ t.Literal l r) := by
  by_cases same : l = r
  · subst same
    rw [subStep_refl]
    exact .yes fun literal => literal.ne rfl
  by_cases both : (l.isSingletonRef && r.isSingletonRef || l.isConstant && r.isConstant) = true
  · refine Decided.imp (Settles.of_run (hq.equate l r hl hr) fun s hs => ?_) (fun _ literal => ?_)
      fun _ => ⟨isSingleton, isSingleton', meets⟩
    · rw [subStep_ground_run hs hl hr same, if_pos both]
    · obtain ⟨v, pre, x, rfl, rfl⟩ := literal.shape
      cases both
  rw [Bool.not_eq_true] at both
  have constant : (∃ v, r = .const v) ∨ ∃ v, l = .const v := by
    cases hl <;> cases hr <;> simp_all [Ty.isSingleton, Ty.isSingletonRef]
  obtain ⟨v, rfl⟩ | ⟨v, rfl⟩ := constant
  · obtain ⟨k, steps⟩ := meets.steps
    refine (subStep_climbs ht hq fueled hl steps).imp (fun _ literal => ?_) fun _ => trivial
    obtain ⟨v, pre, x, rfl, eq⟩ := literal.shape
    cases eq
  · obtain ⟨k, steps⟩ := meets.symm.steps
    have conforms : Decided t n ok (subStep cfg q (.const v) r .unlimited)
        (v = .null ∧ ¬ Limits.aliasSteps ∣ k) (v = .null ∧ ¬ Limits.aliasSteps ∣ k) := by
      refine Settles.of_run (hq.literal k r v hr steps) fun s hs => ?_
      rw [subStep_path_run hs hl hr same (.inl rfl) both, finalPass_const_run]
    cases steps with
    | refl => exact absurd rfl same
    | step next rest =>
      obtain ⟨pre, x, rfl, rfl, -⟩ := next?_eq_some next
      rwa [literal_iff (.step next rest), not_or, not_not]

theorem subStep_equated (hl : t.Ground l) (hr : t.Ground r) (equated : t.Equated l r)
    (declared : ¬ t.Demands t.Redeclared l r) : Decided t n ok (subStep cfg q l r .unlimited)
    (¬ t.Demands t.Literal l r) (¬ t.Demands t.Literal l r) := by
  cases equated with
  | paths isSingleton isSingleton' meets =>
    rw [demands_iff_here (.inl isSingleton)]
    exact subStep_equated_paths ht hq fueled hl hr isSingleton isSingleton' meets
  | refs len pairs => exact subStep_equated_refs ht hq hl hr (.refs len pairs) declared
  | @moduleClass pre pre' x c module =>
    rw [demands_iff_here (.inl rfl)] at declared ⊢
    obtain ⟨pre'', declared⟩ : ∃ pre'', t.declared x = .ref pre'' c [] := by
      by_contra other
      exact declared ⟨module, fun pre eq => other ⟨pre, eq⟩⟩
    have tparams : t.tparams c = [] := List.eq_nil_of_length_eq_zero hr.arity.symm
    have own := hq.self pre'' pre' c hr.static tparams
    refine Decided.imp (Settles.of_run own fun s hs => ?_) (fun _ => id) fun _ => trivial
    rw [subStep_single_run hs fueled hl hr rfl, declared, if_neg (fun h => nomatch h)]
  | @classModule pre pre' x c module =>
    rw [demands_iff_here (.inr rfl)]
    have last : Decided t n ok (leftRef cfg q pre' c [] (.single pre x) .unlimited) True True :=
      leftRef_module_decided ht hl.static hl.arity module hr.owned
    refine Decided.imp (Settles.of_run last fun s hs => ?_) (fun _ => id) fun _ => trivial
    exact subStep_path_run hs hl hr (fun h => nomatch h) (.inr rfl) rfl

end Step

namespace Config

theorem queriesUpTo_relate (cfg : Config) (ht : t.Grounded) (fueled : 0 < cfg.fuel) (n : Nat) :
    (cfg.queriesUpTo n).Relate t n (0 < cfg.fuel) := by
  induction n with
  | zero =>
    refine ⟨cfg.queriesUpTo_equate ht 0, ?_, ?_, ?_, ?_⟩
    all_goals intros; exact cfg.sub_decided_zero
  | succ n ih =>
    refine ⟨cfg.queriesUpTo_equate ht (n + 1), ?_, ?_, ?_, ?_⟩
    · exact fun k l v hl steps => cfg.sub_decided_succ (subStep_climbs ht ih fueled hl steps)
    · exact fun k r v hr steps => cfg.sub_decided_succ (subStep_literal ht ih fueled hr steps)
    · exact fun pre pre' c hc tparams => cfg.sub_decided_succ (subStep_self ht hc tparams)
    · exact fun l r hl hr equated declared => cfg.sub_decided_succ
        (subStep_equated ht ih fueled hl hr equated declared)

end Config

end Conformance

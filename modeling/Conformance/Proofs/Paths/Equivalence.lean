import Conformance.Proofs.Paths.Ground

/-! # What equivalence of ground types means

The answer `true` is given only to equated types. Of paths and constants it is given to all that
meet, unless the guard refused an entry. -/

namespace Conformance

open SymbolTable SymM CheckM

variable {t : SymbolTable} {n : Nat} {cfg : Config}
  {q : Queries} {ok : Prop} {a b : Ty} {pre pre' : Ty} {c d x : SymbolId} {as bs args : List Ty}

/-- Queries for ground types answer `true` only where they are equated, and on paths wherever these
meet. -/
def Queries.Equate (t : SymbolTable) (n : Nat) (ok : Prop) (q : Queries) : Prop :=
  ∀ a b, t.Ground a → t.Ground b → Decided t n ok (q.same a b)
    (t.Equated a b) (a.isSingleton = true ∧ b.isSingleton = true ∧ t.Meets a b)

/-! ## Types of one shape -/

theorem sameAll_settles {R : Ty → Ty → Prop} (h : ∀ a ∈ as, ∀ b ∈ bs, Decided t n ok (q.same a b)
    (R a b) False) : Settles t.Remembers n ok (q.sameAll as bs)
      (fun r => r = true → as.length = bs.length ∧ ∀ (i : Nat) a b, as[i]? = some a →
        bs[i]? = some b → R a b)
      fun _ => True := by
  unfold Queries.sameAll
  split
  · rename_i len
    induction as generalizing bs with
    | nil => exact .pure (fun _ => ⟨len, by simp⟩) trivial
    | cons a as ih =>
      obtain ⟨b, bs, rfl⟩ := List.exists_cons_of_length_eq_add_one len.symm
      have first := h a List.mem_cons_self b List.mem_cons_self
      have rest := ih (fun a ha b hb => h a (List.mem_cons_of_mem _ ha)
        b (List.mem_cons_of_mem _ hb)) (by simpa using len)
      refine Settles.bind first fun r hr => ?_
      cases r with
      | false => exact .pure (fun h => absurd h Bool.false_ne_true) fun _ => trivial
      | true =>
        refine rest.imp (fun _ h b => ⟨len, fun i a' b' ha hb => ?_⟩) fun _ _ _ _ => trivial
        cases i with
        | zero =>
          cases ha
          cases hb
          exact hr rfl
        | succ i => exact (h b).2 i a' b' ha hb
  · exact .pure (fun h => absurd h Bool.false_ne_true) trivial

theorem singleMatchesModule_settles (hok : ok → 0 < cfg.fuel)
    (h : t.Ground (.single pre x)) (rigid : t.IsRigid pre') : Settles t.Remembers n ok
    (singleMatchesModule cfg q x pre c pre' args) (fun r => r = true → t.IsModuleOf x c ∧ args = [])
      fun _ => True := by
  unfold singleMatchesModule
  refine .bind .readTable fun t' ht' => ?_
  simp only [ht'.get_eq]
  by_cases module : (t.get c).isModuleClass = true ∧ args = []
  · obtain ⟨isModuleClass, rfl⟩ := module
    rw [if_pos (by simp [isModuleClass])]
    refine (sameEntity_settles hok Remembers.get_eq h.single_rigid rigid h.owned).imp
      (fun r hr yes => ?_) fun _ _ _ _ => trivial
    rw [hr, decide_eq_true_eq] at yes
    exact ⟨⟨isModuleClass, yes.symm⟩, rfl⟩
  · rw [if_neg (by simpa using module)]
    exact .pure (fun h => absurd h Bool.false_ne_true) fun _ => trivial

/-- What the comparison of two shapes finds out: `true` for equated types only, and for two
references to one value in any case; `false` for constants only. -/
structure ShapeVerdict (t : SymbolTable) (a b : Ty) (r : Option Bool) : Prop where
  equated : r = some true → t.Equated a b
  near : ∀ pre pre' x, a = .single pre x → b = .single pre' x → r = some true
  constants : r = some false → ∃ v w, a = .const v ∧ b = .const w

theorem ShapeVerdict.yes (equated : t.Equated a b) : ShapeVerdict t a b (some true) :=
  ⟨fun _ => equated, fun _ _ _ _ _ => rfl, by simp⟩

theorem ShapeVerdict.unsettled (far : ∀ pre pre' x, a = .single pre x → b ≠ .single pre' x) :
    ShapeVerdict t a b none :=
  ⟨by simp, fun pre pre' x ha hb => absurd hb (far pre pre' x ha), by simp⟩

theorem settledIf_settles {y : CheckM Bool}
      (hy : Settles t.Remembers n ok y (fun r => (r = true → t.Equated a b) ∧
      (r = false → ∀ pre pre' x, a = .single pre x → b ≠ .single pre' x)) fun _ => True) :
    Settles t.Remembers n ok (settledIf y) (ShapeVerdict t a b) fun _ => True := by
  refine hy.bind fun r hr => .pure ?_ fun _ => trivial
  cases r with
  | false => exact .unsettled (hr.2 rfl)
  | true => exact .yes (hr.1 rfl)

theorem sameShape_refs (hok : ok → 0 < cfg.fuel) (hq : q.Equate t n ok)
    (ha : t.Ground (.ref pre c as)) (hb : t.Ground (.ref pre' d bs)) :
    Settles t.Remembers n ok (sameShape cfg q (.ref pre c as) (.ref pre' d bs))
      (ShapeVerdict t (.ref pre c as) (.ref pre' d bs)) fun _ => True := by
  unfold sameShape
  refine (sameEntity_settles hok Remembers.get_eq ha.rigid hb.rigid ha.static.owned).bind
    fun r hr => ?_
  by_cases same : c = d
  · subst same
    simp only [hr, decide_true, Bool.not_true, Bool.false_eq_true, if_false]
    refine .bind .readTable fun t' ht' => ?_
    have complete : (as.isEmpty && bs.isEmpty && !(t'.tparams c).isEmpty) = false := by
      have arity : as.length = (t.get c).tparams.length := ha.arity
      rw [tparams, ht'.get_eq]
      cases as with
      | nil => simp [List.eq_nil_of_length_eq_zero arity.symm]
      | cons => simp
    rw [if_neg (by simp [complete])]
    have args := sameAll_settles (R := t.Equated) fun a mem b mem' =>
      (hq a b (ha.arg mem) (hb.arg mem')).imp id (fun h : False => h.elim)
    refine (settledIf_settles ?_).imp (fun _ h => h) fun _ _ _ _ _ => trivial
    refine args.imp (fun r h => ⟨fun yes => .refs (h yes).1 (h yes).2, ?_⟩) fun _ _ _ => trivial
    exact fun _ _ _ _ h => by cases h
  · simp only [hr, same, decide_false, Bool.not_false, if_true]
    exact .pure (.unsettled fun _ _ _ h => by cases h) fun _ => trivial

theorem sameShape_settles (hok : ok → 0 < cfg.fuel) (hq : q.Equate t n ok) (ha : t.Ground a)
    (hb : t.Ground b) : Settles t.Remembers n ok (sameShape cfg q a b) (ShapeVerdict t a b) fun _ =>
    True := by
  cases a with
  | ref pre c as =>
    cases hb with
    | ref rigid static arity ground =>
      exact sameShape_refs hok hq ha (.ref rigid static arity ground)
    | single rigid owned =>
      refine settledIf_settles ((singleMatchesModule_settles hok (.single rigid owned) ha.rigid).imp
        (fun r h => ⟨fun yes => ?_, fun _ _ _ _ h => by cases h⟩) fun _ _ _ => trivial)
      obtain ⟨module, rfl⟩ := h yes
      exact .classModule module
    | this | const => exact .pure (.unsettled fun _ _ _ h => by cases h) trivial
  | single pre x =>
    cases hb with
    | ref rigid _ _ _ =>
      refine settledIf_settles ((singleMatchesModule_settles hok ha rigid).imp
        (fun r h => ⟨fun yes => ?_, fun _ _ _ _ _ h => by cases h⟩) fun _ _ _ => trivial)
      obtain ⟨module, rfl⟩ := h yes
      exact .moduleClass module
    | @single pre' y rigid _ =>
      refine settledIf_settles ((sameEntity_settles
        hok Remembers.get_eq ha.single_rigid rigid ha.owned).imp ?_ fun _ _ _ => trivial)
      rintro _ rfl
      simp only [decide_eq_true_eq, decide_eq_false_iff_not]
      refine ⟨?_, ?_⟩
      · rintro rfl
        exact .paths rfl rfl (.near (.inr ⟨pre, pre', x, rfl, rfl⟩))
      · rintro other _ _ _ ⟨⟩ ⟨⟩
        exact other rfl
    | this | const => exact .pure (.unsettled fun _ _ _ _ h => by cases h) trivial
  | this c =>
    cases hb with
    | this =>
      refine settledIf_settles (.pure ⟨fun yes => ?_, fun _ _ _ _ h => by cases h⟩ trivial)
      obtain rfl := eq_of_beq yes
      exact .paths rfl rfl (.near (.inl rfl))
    | ref | single | const => exact .pure (.unsettled fun _ _ _ h => by cases h) trivial
  | const v =>
    cases hb with
    | const w =>
      refine .pure ⟨fun yes => ?_, (fun _ _ _ h => by cases h), fun _ => ⟨v, w, rfl, rfl⟩⟩ trivial
      obtain rfl := eq_of_beq (Option.some.inj yes)
      exact .paths rfl rfl (.near (.inl rfl))
    | ref | single | this => exact .pure (.unsettled fun _ _ _ h => by cases h) trivial
  | _ => cases ha

/-! ## Ends of paths -/

theorem sameExpanded_decided (hok : ok → 0 < cfg.fuel) (ha : t.Ground a) (hb : t.Ground b) :
    Decided t n ok (sameExpanded cfg q a b) False False := by
  unfold sameExpanded
  refine .onTable (expand_yields ha) hok fun norm1 h1 => ?_
  refine .onTable (expand_yields hb) hok fun norm2 h2 => ?_
  rw [if_pos (by simp [h1, h2])]
  exact .no id

section Paths

variable (ht : t.Grounded) (hok : ok → 0 < cfg.fuel)
  (hq : q.Equate t n ok) (ha : t.Ground a) (hb : t.Ground b)
include ht hok hq ha hb

theorem samePathEnds_decided (isSingleton : a.isSingleton = true)
    (isSingleton' : b.isSingleton = true) :
    let end1 := t.pathAfter Limits.aliasSteps a
    let end2 := t.pathAfter Limits.aliasSteps b
    Decided t n ok (samePathEnds cfg q a b) (t.Meets a b)
    ((end1 ≠ a ∨ end2 ≠ b) ∧ t.Meets end1 end2) := by
  intro end1 end2
  unfold samePathEnds
  refine .onTable (followPathUpTo_yields ht _ ha isSingleton) hok fun e1 h1 => ?_
  refine .onTable (followPathUpTo_yields ht _ hb isSingleton') hok fun e2 h2 => ?_
  subst h1 h2
  by_cases stay : end1 = a ∧ end2 = b
  · rw [if_pos (by simpa using stay)]
    refine .no fun ⟨moved, _⟩ => ?_
    exact moved.elim (absurd stay.1) (absurd stay.2)
  · rw [if_neg (by simpa using stay)]
    have moved : end1 ≠ a ∨ end2 ≠ b := by
      by_contra h
      exact stay (by simpa using h)
    obtain ⟨ground, single⟩ := ha.pathAfter ht Limits.aliasSteps isSingleton
    obtain ⟨ground', single'⟩ := hb.pathAfter ht Limits.aliasSteps isSingleton'
    exact (hq _ _ ground ground').imp (fun equated => .ends moved (equated.meets single single'))
      fun ⟨_, meets⟩ => ⟨single, single', meets⟩

theorem sameOtherwise_decided : Decided t n ok (sameOtherwise cfg q a b) (t.Equated a b)
      (a.isSingleton = true ∧ b.isSingleton = true ∧
        (t.pathAfter Limits.aliasSteps a ≠ a ∨ t.pathAfter Limits.aliasSteps b ≠ b) ∧
        t.Meets (t.pathAfter Limits.aliasSteps a) (t.pathAfter Limits.aliasSteps b)) := by
  have rules : sameOtherwise cfg q a b = (do
      if a.isSingleton && b.isSingleton then
        if ← samePathEnds cfg q a b then return true
      sameExpanded cfg q a b) := by
    cases ha <;> cases hb <;> rfl
  rw [rules]
  by_cases paths : a.isSingleton = true ∧ b.isSingleton = true
  · obtain ⟨isSingleton, isSingleton'⟩ := paths
    rw [isSingleton, isSingleton', Bool.and_self, if_pos rfl]
    have ends := samePathEnds_decided ht hok hq ha hb isSingleton isSingleton'
    refine (ends.or (sameExpanded_decided hok ha hb)).imp ?_ fun ⟨_, _, h⟩ => .inl h
    exact fun h => h.elim (.paths isSingleton isSingleton') False.elim
  · rw [if_neg (by simpa using paths)]
    exact (sameExpanded_decided hok ha hb).imp False.elim fun ⟨h, h', _⟩ => paths ⟨h, h'⟩

theorem sameStep_decided : Decided t n ok (sameStep cfg q a b) (t.Equated a b)
      (a.isSingleton = true ∧ b.isSingleton = true ∧ t.Meets a b) := by
  unfold sameStep
  by_cases same : a = b
  · subst same
    rw [if_pos (by simp)]
    exact .yes ha.equated_refl
  · simp only [same, decide_false, ha.isPermissive, hb.isPermissive, ha.isPresent, hb.isPresent,
      ha.ne_noPrefix, hb.ne_noPrefix, Bool.or_self, Bool.not_true, Bool.false_eq_true, if_false]
    refine .after (sameShape_settles hok hq ha hb) fun verdict h => ?_
    match verdict with
    | some true => exact .yes (h.equated rfl)
    | some false =>
      -- constants lead nowhere, so different ones do not meet
      obtain ⟨v, w, rfl, rfl⟩ := h.constants rfl
      refine .no fun ⟨_, _, meets⟩ => ?_
      obtain ⟨k, steps⟩ := meets.steps
      cases steps with
      | refl => exact same rfl
      | step next _ => cases next
    | none =>
      refine (sameOtherwise_decided ht hok hq ha hb).imp
        id fun ⟨isSingleton, isSingleton', meets⟩ => ?_
      refine ⟨isSingleton, isSingleton', ?_⟩
      cases meets with
      | near near =>
        obtain rfl | ⟨pre, pre', x, rfl, rfl⟩ := near
        · exact absurd rfl same
        · cases h.near pre pre' x rfl rfl
      | ends moved meets => exact ⟨moved, meets⟩

end Paths

theorem Config.queriesUpTo_equate (cfg : Config) (ht : t.Grounded) (n : Nat) :
    (cfg.queriesUpTo n).Equate t n (0 < cfg.fuel) := by
  induction n with
  | zero => exact fun a b _ _ => .query Guard.admits_enterUntracked _ _ fun _ h => nomatch h
  | succ n ih =>
    intro a b ha hb
    refine .query Guard.admits_enterUntracked _ _ fun m h => ?_
    obtain rfl : n = m := by simpa using h
    exact sameStep_decided ht id ih ha hb

end Conformance

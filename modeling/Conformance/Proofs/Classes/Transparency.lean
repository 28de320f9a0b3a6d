import Conformance.Proofs.Classes.Aliases

/-! # Subtyping is transparent to aliases

An alias is met by five rules: as the constructor on both sides, with variances of its own, by the
search for base types, by the second pass on the right, by the last pass on the left, and by
normalization. Whichever comes first, queries answer what is accepted between the types that the
aliases stand for. -/

namespace Conformance

open SymbolTable SymM CheckM

variable {t : SymbolTable} {n : Nat} {ps : List SymbolId} {a : SymbolId}

namespace SymbolTable

theorem Aliased.ne_known (ha : t.Aliased) {s : SymbolId} (head : t.IsAlias a)
    (known : s ∈ [Known.nothing, Known.null, Known.singleton, Known.notNull]) : a ≠ s := by
  intro eq
  subst eq
  exact ha.known a known head.kind

/-- What the types stand for is accepted. -/
def StandsBelow (t : SymbolTable) (l r : Ty) : Prop :=
    ∃ l' r', t.Expands l l' ∧ t.Expands r r' ∧ t.Accepts l' r'

theorem standsBelow_iff {l r l' r' : Ty} (el : t.Expands l l')
    (er : t.Expands r r') : t.StandsBelow l r ↔ t.Accepts l' r' := by
  constructor
  · rintro ⟨x, y, ex, ey, accepts⟩
    rwa [el.unique ex, er.unique ey]
  · exact fun accepts => ⟨l', r', el, er, accepts⟩

theorem ExpandsAll.pointwise_iff {as as' bs bs' : List Ty}
    (ea : t.ExpandsAll as as') (eb : t.ExpandsAll bs bs') :
    t.Pointwise t.StandsBelow ps as bs ↔ t.Pointwise t.Accepts ps as' bs' := by
  constructor
  · intro h
    refine ⟨ea.len ▸ eb.len ▸ h.len, fun i p a' b' hp ha' hb' hvar =>
      ?_, fun i p a' b' hp ha' hb' hvar => ?_⟩
    all_goals
      obtain ⟨a, ha, el⟩ := ea.right ha'
      obtain ⟨b, hb, er⟩ := eb.right hb'
    · exact (standsBelow_iff el er).1 (h.co i p a b hp ha hb hvar)
    · exact (standsBelow_iff er el).1 (h.contra i p a b hp ha hb hvar)
  · intro h
    refine ⟨ea.len.trans (h.len.trans eb.len.symm), fun i p a b hp ha hb hvar =>
      ?_, fun i p a b hp ha hb hvar => ?_⟩
    all_goals
      obtain ⟨a', ha', el⟩ := ea.left ha
      obtain ⟨b', hb', er⟩ := eb.left hb
    · exact (standsBelow_iff el er).2 (h.co i p a' b' hp ha' hb' hvar)
    · exact (standsBelow_iff er el).2 (h.contra i p a' b' hp ha' hb' hvar)

/-- The same constructor on both sides answers for what it stands for. -/
theorem Pointwise.accepts (ha : t.Aliased) {pkg pkg' c : SymbolId}
    {as bs : List Ty} {l' r' : Ty} (args : t.Pointwise t.StandsBelow (t.tparams c) as bs)
    (hl : t.Written ps (.ref (.this pkg) c as)) (el : t.Expands (.ref (.this pkg) c as) l')
    (er : t.Expands (.ref (.this pkg') c bs) r') : t.Accepts l' r' := by
  cases el with
  | applied plain len each =>
    cases er with
    | applied _ len' each' =>
      exact .of_args plain .here ((ExpandsAll.pointwise_iff ⟨len, each⟩ ⟨len', each'⟩).1 args)
    | replaced head => exact absurd head plain.not_isAlias
  | replaced head rhs len each =>
    cases er with
    | applied plain => exact absurd head plain.not_isAlias
    | replaced _ rhs' len' each' =>
      obtain rfl := rhs.unique rhs'
      have term := ha.classTerm rhs (ha.rhs c head).1
      exact Occurs.inst_monotone (fun plain args => .of_args plain .here args)
        (len ▸ hl.arity) ((ExpandsAll.pointwise_iff ⟨len, each⟩ ⟨len', each'⟩).1 args)
        term (ha.variances c head _ rhs)

end SymbolTable

/-! ## Looking through aliases -/

namespace SymM

/-- Enough fuel for the declared parents and for the right-hand sides of aliases. -/
structure Supplied (t : SymbolTable) (fuel : Nat) : Prop extends Fueled t fuel where
  rhs : ∀ a, t.IsAlias a → sizeOf (t.info a) < fuel

theorem exists_supplied (t : SymbolTable) : ∃ bound, ∀ fuel, bound ≤ fuel → Supplied t fuel := by
  obtain ⟨bound, fueled⟩ := exists_fueled t
  refine ⟨max bound (sizeOf (SymbolRecord.absent :: t.records.toList)), fun fuel enough => ?_⟩
  refine ⟨fueled fuel (by omega), fun a _ => ?_⟩
  have record := sizeOf_get_lt t a
  show sizeOf (t.get a).info < fuel
  cases h : t.get a
  rw [h] at record
  simp only [SymbolRecord.mk.sizeOf_spec] at record ⊢
  omega

variable {fuel : Nat} {pkg a c d : SymbolId} {as : List Ty} {l e : Ty}

theorem expandAlias_yields (ha : t.Aliased) (head : t.IsAlias a)
    (arity : as.length = (t.tparams a).length) : Yields t (Supplied t fuel)
    (View.expandAlias fuel (asSeenFrom fuel) (.this pkg) a as)
      (· = (t.info a).inst (t.tparams a) as) := by
  unfold View.expandAlias
  refine (record_yields a).bind fun r hr => ?_
  subst hr
  refine ((asSeenFrom_package Remembers.get_eq head.owned fuel _).of_ok fun ok =>
    ok.pos).bind fun seen hseen => ?_
  subst hseen
  exact (substTypes_term (ha.rhs a head).1.isTerm arity fuel).of_ok fun ok => ok.rhs a head

section HeadForm

variable (ha : t.Aliased) (form : t.HeadForm n l e) (written : t.Written ps l)
include ha form written

theorem normalizeUpTo_yields {steps : Nat} (enough : n < steps) :
    Yields t (Supplied t fuel) (normalizeUpTo fuel steps l) (· = e) := by
  induction form generalizing steps with
  | plain plain =>
    obtain ⟨steps, rfl⟩ : ∃ m, steps = m + 1 := ⟨steps - 1, by omega⟩
    exact normalizeUpTo_applied written.arity plain.not_alias steps
  | @step _ pkg a as _ head _ ih =>
    obtain ⟨steps, rfl⟩ : ∃ m, steps = m + 1 := ⟨steps - 1, by omega⟩
    unfold normalizeUpTo
    refine (record_yields a).bind fun r hr => ?_
    subst hr
    have applied : ((t.get a).tparams.isEmpty || (t.get a).tparams.length == as.length) = true := by
      have arity : as.length = (t.get a).tparams.length := written.arity
      simp [arity]
    rw [if_pos head.isAliasType, if_pos applied]
    refine (expandAlias_yields ha head written.arity).bind fun next hnext => ?_
    subst hnext
    exact ih ((ha.rhs a head).1.inst written.arity fun _ => written.arg) (by omega)

theorem dealias_yields {steps : Nat} (enough : n < steps) :
    Yields t (Supplied t fuel) (View.dealias fuel (asSeenFrom fuel) steps l) (· = e) := by
  induction form generalizing steps with
  | @plain _ c _ plain =>
    obtain ⟨steps, rfl⟩ : ∃ m, steps = m + 1 := ⟨steps - 1, by omega⟩
    unfold View.dealias
    refine (record_yields c).bind fun r hr => ?_
    rw [hr, plain.not_alias]
    exact .pure rfl
  | @step _ pkg a as _ head _ ih =>
    obtain ⟨steps, rfl⟩ : ∃ m, steps = m + 1 := ⟨steps - 1, by omega⟩
    unfold View.dealias
    refine (record_yields a).bind fun r hr => ?_
    subst hr
    have applied : (!(t.get a).isAliasType || (t.get a).tparams.length != as.length) = false := by
      have arity : as.length = (t.get a).tparams.length := written.arity
      simp [arity, head.isAliasType]
    rw [applied]
    refine (expandAlias_yields ha head written.arity).bind fun next hnext => ?_
    subst hnext
    exact ih ((ha.rhs a head).1.inst written.arity fun _ => written.arg) (by omega)

end HeadForm

theorem normalize_headForm (ha : t.Aliased) (written : t.Written ps (.ref (.this pkg) c as)) :
    Yields t (Supplied t fuel) (normalize fuel (.ref (.this pkg) c as)) fun e =>
      ∃ n, t.HeadForm n (.ref (.this pkg) c as) e := by
  obtain ⟨n, e, le, form⟩ := ha.exists_headForm written
  have enough : n < Limits.aliasSteps := Nat.lt_of_le_of_lt le (by decide)
  exact (normalizeUpTo_yields ha form written enough).imp fun _ eq => ⟨n, eq ▸ form⟩

/-- A base type is found for what the type stands for. -/
def StandsForBase (t : SymbolTable) (ps : List SymbolId)
    (l' : Ty) (d : SymbolId) (found : Ty) : Prop :=
  ∃ pkg cs cs', found = .ref (.this pkg) d cs ∧ t.Written ps found ∧
    t.ExpandsAll cs cs' ∧ t.Nearest d l' cs'

/-- Aliases do not hide a base type. The search for it spends one hop on those at the head. -/
theorem baseType_written (ht : t.Plain) (ha : t.Aliased)
    {l' : Ty} (written : t.Written ps (.ref (.this pkg) c as))
    (expands : t.Expands (.ref (.this pkg) c as) l') (hd : t.IsPlainClass d) :
    Yields t (Supplied t fuel) (baseType fuel (.ref (.this pkg) c as) d) fun found =>
      (∀ cs', ¬ t.Nearest d l' cs') ∧ found = .noType ∨ StandsForBase t ps l' d found := by
  have search : ∀ {steps pkg1 c1 as1}, 61 ≤ steps →
      t.IsPlainClass c1 → t.Written ps (.ref (.this pkg1) c1 as1) →
      t.Expands (.ref (.this pkg1) c1 as1) l' → Yields t (Supplied t fuel)
      (View.baseTypeUpTo fuel (asSeenFrom fuel) d steps (.ref (.this pkg1) c1 as1))
        fun found => (∀ cs', ¬ t.Nearest d l' cs') ∧
          found = .noType ∨ StandsForBase t ps l' d found := by
    intro steps pkg1 c1 as1 hops plain written expands
    have hl : t.Applied pkg1 c1 as1 := ⟨written.applied.1, plain, written.arity⟩
    refine ((baseTypeUpTo_yields ht hl hd (ht.within c1) (.inl hops)).of_ok (·.toFueled)).imp
      fun found hfound => ?_
    cases expands with
    | replaced head => exact absurd head plain.not_isAlias
    | @applied _ _ _ as1' _ len each =>
      have hl' : t.Applied pkg1 c1 as1' := ⟨hl.package, plain, len ▸ hl.arity⟩
      obtain ⟨none, rfl⟩ | ⟨pkg2, cs, rfl, package, nearest⟩ := hfound
      · exact .inl ⟨fun cs' nearest => none (nearest.derives ht hl'), rfl⟩
      · obtain ⟨cs', all, nearest'⟩ := nearest.expands ht ha hl ⟨len, each⟩
        have congruent : t.Congruent (t.Written ps) :=
          fun applied => .app applied.package (.inl applied.plain) applied.arity
        obtain ⟨applied, terms⟩ := nearest.applied ht congruent hl (fun _ => written.arg) package
        exact .inr ⟨pkg2, cs, cs', rfl, congruent applied terms, all, nearest'⟩
  obtain plain | head := written.applied.2.1
  · exact search (by decide) plain written expands
  · unfold baseType View.baseType View.baseTypeUpTo
    have other : (c == d) = false := by
      rw [beq_eq_false_iff_ne]
      rintro rfl
      exact hd.not_isAlias head
    simp only [other, Bool.false_eq_true, if_false]
    refine (record_yields c).bind fun r hr => ?_
    subst hr
    simp only [head.not_class, head.isAliasType, Bool.false_eq_true, if_false, if_true]
    obtain ⟨n, e, le, form⟩ := ha.exists_headForm written
    have enough : n < Limits.aliasSteps := Nat.lt_of_le_of_lt le (by decide)
    refine (dealias_yields ha form written enough).bind fun expanded hexpanded => ?_
    subst hexpanded
    rw [if_neg (form.ne_of_isAlias head)]
    obtain ⟨pkg1, c1, as1, rfl, plain⟩ := form.shape
    exact search (by decide) plain (form.written ha written) (form.expands ha written expands)

end SymM

/-! ## Rules -/

/-- Queries answer `true` only to what is accepted between the types that aliases stand for, and
with an unlimited depth to all of it. -/
def Queries.Transparent (t : SymbolTable) (n : Nat) (ok : Prop) (q : Queries) : Prop :=
  ∀ l r, t.Written [] l → t.Written [] r → ∀ depth,
    Decided t n ok (q.sub l r depth) (t.StandsBelow l r) (depth = .unlimited ∧ t.StandsBelow l r)

variable {cfg : Config} {q : Queries} {pkg pkg' c d : SymbolId}
  {as bs : List Ty} {l r l' r' : Ty} {depth : Depth}

section Rules

variable (ht : t.Plain) (ha : t.Aliased) (hq : q.Transparent t n (Supplied t cfg.fuel))
  (hl : t.Written [] (.ref (.this pkg) c as)) (hr : t.Written [] (.ref (.this pkg') d bs))
  (el : t.Expands (.ref (.this pkg) c as) l') (er : t.Expands (.ref (.this pkg') d bs) r')
include ha hq hl hr el er

/-- Where an alias is at the head of a side, both sides are compared in normal form. -/
theorem normalized_decided {otherwise : CheckM Bool} (either : t.IsAlias c ∨ t.IsAlias d) :
    Decided t n (Supplied t cfg.fuel) (do
      let norm1 ← normalize cfg.fuel (.ref (.this pkg) c as)
      let norm2 ← normalize cfg.fuel (.ref (.this pkg') d bs)
      if norm1 = .ref (.this pkg) c as && norm2 = .ref (.this pkg') d bs then otherwise
      else q.sub norm1 norm2 depth) (t.Accepts l' r') (depth = .unlimited ∧ t.Accepts l' r') := by
  refine .onTable (normalize_headForm ha hl) id fun norm1 form1 => ?_
  refine .onTable (normalize_headForm ha hr) id fun norm2 form2 => ?_
  obtain ⟨_, form1⟩ := form1
  obtain ⟨_, form2⟩ := form2
  have changed : (decide (norm1 = .ref (.this pkg) c as) &&
    decide (norm2 = .ref (.this pkg') d bs)) = false := by
    obtain head | head := either
    · simp [form1.ne_of_isAlias head]
    · simp [form2.ne_of_isAlias head]
  simp only [changed, Bool.false_eq_true, if_false]
  rw [← standsBelow_iff (form1.expands ha hl el) (form2.expands ha hr er)]
  exact hq norm1 norm2 (form1.written ha hl) (form2.written ha hr) depth

/-- An alias on the right is expanded by the second pass. -/
theorem rightRef_alias_decided (hd : t.IsAlias d) : Decided t n (Supplied t cfg.fuel)
    (rightRef cfg q (.ref (.this pkg) c as) (.this pkg') d bs depth)
      (t.Accepts l' r') (depth = .unlimited ∧ t.Accepts l' r') := by
  unfold rightRef
  refine .readTable fun t' ht' => ?_
  have notNull : d ≠ Known.notNull := ha.ne_known hd (by simp)
  have singleton : d ≠ Known.singleton := ha.ne_known hd (by simp)
  simp only [ht'.get_eq, beq_iff_eq, notNull, singleton, hd.not_class, hd.concrete, hd.isAliasType,
    Bool.false_eq_true, if_false, if_true]
  exact normalized_decided ha hq hl hr el er (.inr hd)

/-- An alias on the left is expanded by the last pass, if no class on the right answered before. -/
theorem leftRef_alias_decided (hc : t.IsAlias c) : Decided t n (Supplied t cfg.fuel)
    (leftRef cfg q (.this pkg) c as (.ref (.this pkg') d bs) depth)
      (t.Accepts l' r') (depth = .unlimited ∧ t.Accepts l' r') := by
  unfold leftRef
  have nothing : c ≠ Known.nothing := ha.ne_known hc (by simp)
  have null : c ≠ Known.null := ha.ne_known hc (by simp)
  simp only [beq_iff_eq, nothing, null, if_false]
  refine .readTable fun t' ht' => ?_
  simp only [ht'.get_eq, hc.not_class, hc.concrete,
    hc.isAliasType, Bool.false_eq_true, if_false, if_true]
  exact normalized_decided ha hq hl hr el er (.inl hc)

include ht

/-- The search by the base type on the left, then the passes after it, of which `last` says what
they give. -/
theorem baseSearch_transparent (hd : t.IsPlainClass d) {bs' : List Ty}
    (hr' : r' = .ref (.this pkg') d bs') {L : Prop} (last : Decided t n (Supplied t cfg.fuel)
    (rightRef cfg q (.ref (.this pkg) c as) (.this pkg') d bs depth)
      (t.Accepts l' r') L) {t' : SymbolTable} (ht' : t.Remembers t') :
    Decided t n (Supplied t cfg.fuel) (baseSearch cfg q (.this pkg) c as (.this pkg') d bs depth t')
      (t.Accepts l' r') (L ∨ depth = .unlimited ∧ c ≠ d ∧
      ∃ cs', t.Nearest d l' cs' ∧ t.Pointwise t.Accepts (t.tparams d) cs' bs') := by
  rw [baseSearch, ht'.get_eq, hd.isClass]
  by_cases exhausted : depth.isExhausted = true
  · simp only [exhausted, Bool.not_true, Bool.and_false, Bool.false_eq_true, if_false]
    refine last.imp id fun h => h.resolve_right ?_
    rintro ⟨rfl, -⟩
    cases exhausted
  · simp only [exhausted, Bool.not_false, Bool.and_true, if_true]
    refine .onTable (baseType_written ht ha hl el hd) id fun base hbase => ?_
    obtain ⟨none, rfl⟩ | ⟨pkg'', cs, cs', rfl, written, ec, nearest⟩ := hbase
    · simp only [Ty.isPresent, Bool.and_false, Bool.false_eq_true, if_false]
      refine last.imp id fun h => h.resolve_right ?_
      rintro ⟨-, -, cs', nearest, -⟩
      exact none cs' nearest
    · by_cases same : Ty.ref (.this pkg'') d cs = .ref (.this pkg) c as
      · simp only [same, bne_self_eq_false, Bool.false_and, Bool.false_eq_true, if_false]
        cases same
        exact last.imp id fun h => h.resolve_right fun other => other.2.1 rfl
      · simp only [bne_iff_ne.2 same, Ty.isPresent, Bool.and_self, if_true]
        have base : t.Expands (.ref (.this pkg'') d cs) (.ref (.this pkg'') d cs') :=
          .applied hd ec.len ec.each
        have first := hq _ _ written hr depth.decr
        rw [standsBelow_iff base er] at first
        subst hr'
        refine (first.or last).imp ?_ ?_
        · rintro (accepts | accepts)
          · obtain ⟨_, _, _, rfl⟩ := nearest.shape
            exact accepts.of_nearest ht hd nearest
          · exact accepts
        · rintro (h | ⟨rfl, -, cs'', nearest', args⟩)
          · exact .inr h
          · obtain rfl := nearest.unique nearest'
            exact .inl ⟨rfl, .of_args hd .here args⟩

/-- Two classes, with aliases in their arguments: what follows the comparison of the arguments. -/
theorem classSearch_transparent (hc : t.IsPlainClass c)
    (hd : t.IsPlainClass d) {t' : SymbolTable} (ht' : t.Remembers t') :
    Decided t n (Supplied t cfg.fuel) (baseSearch cfg q (.this pkg) c as (.this pkg') d bs depth t')
      (t.Accepts l' r')
      (depth = .unlimited ∧
        t.Accepts l' r' ∧ ¬ (c = d ∧ t.Pointwise t.StandsBelow (t.tparams c) as bs)) := by
  have applied : t.Applied pkg c as := ⟨hl.applied.1, hc, hl.arity⟩
  have applied' : t.Applied pkg' d bs := ⟨hr.applied.1, hd, hr.arity⟩
  have passes : Decided t n (Supplied t cfg.fuel) (rightRef cfg q (.ref (.this pkg) c as)
      (.this pkg') d bs depth) (t.Bottom c d) (t.Bottom c d) :=
      Settles.of_ok (rightRef_decided ht applied applied') (·.toFueled)
  have er' := er
  cases el with
  | replaced head => exact absurd head hc.not_isAlias
  | @applied _ _ _ as' _ len each =>
  cases er with
  | replaced head => exact absurd head hd.not_isAlias
  | @applied _ _ _ bs' _ len' each' =>
  have el : t.Expands (.ref (.this pkg) c as) (.ref (.this pkg) c as') := .applied hc len each
  have last : Decided t n (Supplied t cfg.fuel) (rightRef cfg q (.ref (.this pkg) c as) (.this pkg')
      d bs depth) (t.Accepts (.ref (.this pkg) c as') (.ref (.this pkg') d bs')) (t.Bottom c d) :=
    passes.imp (fun bottom => bottom.accepts hd) id
  refine (baseSearch_transparent ht ha hq hl hr el er' hd rfl last ht').imp id ?_
  rintro ⟨unlimited, accepts, args⟩
  obtain bottom | ⟨cs, nearest, accepted⟩ := accepts.cases rfl
  · exact .inl bottom
  · refine .inr ⟨unlimited, fun same => ?_, cs, nearest, accepted⟩
    subst same
    obtain rfl := nearest.self
    exact args ⟨rfl, (ExpandsAll.pointwise_iff ⟨len, each⟩ ⟨len', each'⟩).2 accepted⟩

/-- Two references, with aliases at their heads or not. -/
theorem refsConform_transparent :
    Decided t n (Supplied t cfg.fuel) (refsConform cfg q (.this pkg) c as (.this pkg') d bs depth)
      (t.Accepts l' r') (depth = .unlimited ∧ t.Accepts l' r') := by
  have owned : t.IsPackage (t.owner c) := hl.applied.2.1.elim (·.owned) (·.owned)
  have concrete : (t.get d).isAbstractType = false := by
    obtain plain | head := hr.applied.2.1
    · rw [SymbolRecord.isAbstractType, plain.isClass]
      simp
    · exact head.concrete
  refine refsConform_of_search (R := t.StandsBelow) (·.pos)
    owned concrete hl.arity hr.arity (fun a ha' b hb' => ?_) (fun same args => ?_) fun t' ht' => ?_
  · exact ⟨hq a b (hl.arg ha') (hr.arg hb') depth, hq b a (hr.arg hb') (hl.arg ha') depth⟩
  · subst same
    exact args.accepts ha hl el er
  -- what follows is complete but where the arguments alone decide
  obtain plain' | head' := hr.applied.2.1
  · obtain plain | head := hl.applied.2.1
    · exact classSearch_transparent ht ha hq hl hr el er plain plain' ht'
    · have last : Decided t n (Supplied t cfg.fuel) (rightRef cfg q (.ref (.this pkg) c as)
          (.this pkg') d bs depth) (t.Accepts l' r') (depth = .unlimited ∧ t.Accepts l' r') :=
        Settles.of_run (leftRef_alias_decided ha hq hl hr el er head) fun _ hs =>
          rightRef_run hs plain'.static hr.arity
      have er' := er
      cases er with
      | replaced head' => exact absurd head' plain'.not_isAlias
      | applied =>
      exact (baseSearch_transparent ht ha hq hl hr el er' plain' rfl last ht').imp id fun h =>
        .inl ⟨h.1, h.2.1⟩
  · rw [baseSearch, ht'.get_eq, head'.not_class]
    simp only [Bool.false_and, Bool.false_eq_true, if_false]
    exact (rightRef_alias_decided ha hq hl hr el er head').imp id fun h => ⟨h.1, h.2.1⟩

end Rules

theorem SymbolTable.Written.shape (h : t.Written [] l) : ∃ pkg c as, l = .ref (.this pkg) c as := by
  cases h with
  | param mem => cases mem
  | app => exact ⟨_, _, _, rfl⟩

theorem subStep_transparent (ht : t.Plain) (ha : t.Aliased)
    (hq : q.Transparent t n (Supplied t cfg.fuel)) (hl : t.Written [] l) (hr : t.Written [] r) :
    Decided t n (Supplied t cfg.fuel) (subStep cfg q l r depth) (t.StandsBelow l r)
      (depth = .unlimited ∧ t.StandsBelow l r) := by
  obtain ⟨l', el⟩ := ha.exists_expands hl
  obtain ⟨r', er⟩ := ha.exists_expands hr
  rw [standsBelow_iff el er]
  by_cases same : l = r
  · subst same
    obtain rfl := el.unique er
    rw [subStep_refl]
    exact .yes (.refl (ClassType.joined (ha.classTerm el hl)))
  · obtain ⟨pkg, c, as, rfl⟩ := hl.shape
    obtain ⟨pkg', d, bs, rfl⟩ := hr.shape
    exact Settles.of_run (refsConform_transparent ht ha hq hl hr el er) fun _ hs =>
      subStep_refs_run hs same hl.arity hr.arity

namespace Config

theorem queriesUpTo_transparent (cfg : Config) (ht : t.Plain) (ha : t.Aliased) (n : Nat) :
    (cfg.queriesUpTo n).Transparent t n (Supplied t cfg.fuel) := by
  induction n with
  | zero => exact fun l r _ _ depth => cfg.sub_decided_zero
  | succ n ih =>
    exact fun l r hl hr depth => cfg.sub_decided_succ (subStep_transparent ht ha ih hl hr)

theorem isSubtype_standsBelow (cfg : Config) (ht : t.Plain)
    (ha : t.Aliased) (hl : t.Written [] l) (hr : t.Written [] r) : Decided t n (Supplied t cfg.fuel)
    (cfg.isSubtype l r) (t.StandsBelow l r) (t.StandsBelow l r) := by
  have decided : Decided t n (Supplied t cfg.fuel) (cfg.isSubtypeDepth l r .unlimited)
      (t.StandsBelow l r) (Depth.unlimited = .unlimited ∧ t.StandsBelow l r) :=
    withQueries_settles cfg fun n => cfg.queriesUpTo_transparent ht ha n l r hl hr .unlimited
  exact decided.imp id fun below => ⟨rfl, below⟩

/-- Every type written with aliases stands for one class type. With fuel for the declared parents
and the right-hand sides of aliases, the checker answers for two such types what it answers for the
class types, whatever its policy and in any two states over the table, unless its guard refused an
entry. -/
theorem isSubtype_transparent_to_aliases (ht : t.Plain) (ha : t.Aliased) :
    (∀ ty, t.Written [] ty → ∃ ty', t.ClassType ty' ∧ t.Expands ty ty' ∧
      ∀ other, t.Expands ty other → other = ty') ∧
    ∃ bound, ∀ (cfg : Config) (s1 s2 : CheckState) (l r l' r' : Ty), bound ≤ cfg.fuel →
      t.Remembers s1.table → t.Remembers s2.table → t.Written [] l → t.Written [] r →
      t.Expands l l' → t.Expands r r' →
      ∃ b1 s1' b2 s2', cfg.isSubtype l r s1 = .ok b1 s1' ∧ cfg.isSubtype l' r' s2 = .ok b2 s2' ∧
        (b1 = b2 ∨ Counted s1 s1' ∨ Counted s2 s2') := by
  constructor
  · intro ty written
    obtain ⟨ty', expands⟩ := ha.exists_expands written
    exact ⟨ty', ha.classTerm expands written, expands, fun other h => h.unique expands⟩
  · obtain ⟨bound, supplied⟩ := exists_supplied t
    refine ⟨bound, fun cfg s1 s2 l r l' r' enough hs1 hs2 hl hr el er => ?_⟩
    have hl' := ha.classTerm el hl
    have hr' := ha.classTerm er hr
    obtain ⟨b1, s1', run1, -, sound1, complete1⟩ :=
      Settles.run (fun _ => cfg.isSubtype_standsBelow ht ha hl hr) hs1 (supplied cfg.fuel enough)
    obtain ⟨b2, s2', run2, -, sound2, complete2⟩ :=
      Settles.run (fun _ => cfg.isSubtype_standsBelow ht ha hl'.written hr'.written)
        hs2 (supplied cfg.fuel enough)
    -- both sides stand for the same pair of class types
    rw [standsBelow_iff el er] at sound1 complete1
    rw [standsBelow_iff hl'.expands hr'.expands] at sound2 complete2
    refine ⟨b1, s1', b2, s2', run1, run2, ?_⟩
    obtain counted | complete1 := complete1
    · exact .inr (.inl counted)
    obtain counted | complete2 := complete2
    · exact .inr (.inr counted)
    · exact .inl (Bool.eq_iff_iff.2 ⟨fun h => complete2 (sound1 h), fun h => complete1 (sound2 h)⟩)

/-- `Box[+A]` and `Cell[B] extends Box[B]`, with the identifiers 26 and 28, and the aliases
`Crate[+X] = Box[Box[X]]` and `Locker[Y] = Crate[Cell[Y]]`, with the identifiers 30 and 32. -/
def crates : SymbolTable := SymM.after (do
  let pkg ← newPackage Known.rootClass "crates"
  let box ← newGeneric pkg "Box" "A" .covariant fun _ => [Known.anyRefType]
  let cell ← newGeneric pkg "Cell" "B" .invariant fun b => [.ref (.this pkg) box [b]]
  let crate ← newAliasType pkg "Crate"
  let x ← newTypeParam crate "X" .covariant
  modify (·.setTParams crate [x])
  setInfo crate (.ref (.this pkg) box [.ref (.this pkg) box [.ref .noPrefix x []]])
  let locker ← newAliasType pkg "Locker"
  let y ← newTypeParam locker "Y" .invariant
  modify (·.setTParams locker [y])
  setInfo locker (.ref (.this pkg) crate [.ref (.this pkg) cell [.ref .noPrefix y []]])) .initial

theorem crates_lists : crates.ListsPlain ∧ crates.ListsAliases := by decide +kernel

/-- `Locker[String]` is below `Crate[AnyRef]` as `Box[Box[Cell[String]]]` is below
`Box[Box[Object]]`. -/
theorem locker_answers_as_boxes :
    let locker : Ty := .ref (.this ⟨24⟩) ⟨32⟩ [Known.javaLangRef Known.string]
    let crate : Ty := .ref (.this ⟨24⟩) ⟨30⟩ [Known.anyRefType]
    let box : Ty → Ty := fun a => .ref (.this ⟨24⟩) ⟨26⟩ [a]
    let cells : Ty := box (box (.ref (.this ⟨24⟩) ⟨28⟩ [Known.javaLangRef Known.string]))
    let objects : Ty := box (box Known.objectType)
    crates.Plain ∧ crates.Aliased ∧ crates.Written [] locker ∧ crates.Written [] crate ∧
      crates.Expands locker cells ∧ crates.Expands crate objects ∧
      (isSubtype ⟨{}, .typeConstraints, 16⟩ locker crate).answer?
        (.fresh {} crates 0 #[]) = some true ∧
      ∃ bound, ∀ (cfg : Config) (s : CheckState), bound ≤ cfg.fuel →
        s.table = crates → ∃ b1 s1 b2 s2, cfg.isSubtype locker crate s = .ok b1 s1 ∧
        cfg.isSubtype cells objects s = .ok b2 s2 ∧
          (b1 = b2 ∨ Counted s s1 ∨ Counted s s2) := by
  intro locker crate box cells objects
  have plain := crates_lists.1.plain
  have aliased := crates_lists.2.aliased
  have checks : crates.isWritten [] crates.size locker = true ∧ crates.isWritten
      [] crates.size crate = true ∧ crates.expandUpTo 8 locker = some cells ∧ crates.expandUpTo
      8 crate = some objects ∧ (isSubtype ⟨{}, .typeConstraints, 16⟩ locker crate).answer?
      (.fresh {} crates 0 #[]) = some true := by
    decide +kernel
  obtain ⟨writtenLocker, writtenCrate, expandLocker, expandCrate, answer⟩ := checks
  have hlocker := (crates.written_of_check _ writtenLocker).1
  have hcrate := (crates.written_of_check _ writtenCrate).1
  have elocker := expands_of_check expandLocker
  have ecrate := expands_of_check expandCrate
  obtain ⟨bound, answers⟩ := (isSubtype_transparent_to_aliases plain aliased).2
  refine ⟨plain, aliased, hlocker, hcrate, elocker, ecrate, answer, bound, ?_⟩
  intro cfg s enough hs
  have remembers : crates.Remembers s.table := by
    rw [hs]
    exact plain.remembers
  exact answers cfg s s locker crate cells objects
    enough remembers remembers hlocker hcrate elocker ecrate

end Config

end Conformance

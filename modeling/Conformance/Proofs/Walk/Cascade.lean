import Conformance.Proofs.Walk.Solving

/-! # The cascade, run twice: refinements, existentials, methods and constructors, equivalence, the
passes of conformance -/

namespace Conformance

open CheckM Relabeling

variable {x y : CheckM Bool}

/-- What is tried where the arguments of two references do not settle the question: the base type of
the left, then the second pass on the right. -/
def baseSearch (cfg : Config) (q : Queries) (pre1 : Ty)
    (s1 : SymbolId) (args1 : List Ty) (pre2 : Ty) (s2 : SymbolId)
    (args2 : List Ty) (depth : Depth) (t : SymbolTable) : CheckM Bool := do
  if (t.get s2).isClass && !depth.isExhausted then
    let base ← baseType cfg.fuel (.ref pre1 s1 args1) s2
    if base != .ref pre1 s1 args1 && base.isPresent then
      if ← q.sub base (.ref pre2 s2 args2) depth.decr then return true
  rightRef cfg q (.ref pre1 s1 args1) pre2 s2 args2 depth

/-- The contract that an annotation checker is given. -/
def AnnotationChecker.Walks (sc : Scope) (ρ : Relabeling)
    (P : PairContract CheckM) (check : AnnotationChecker) : Prop :=
  ∀ {n : Nat} {l r : Ty}, sc.In n l → sc.In n r → P n (onTable (check l r))
    (onTable (check (ρ.move l) (ρ.move r))) sc.In

variable {sc : Scope} {ρ : Relabeling} {Fit : List SymbolId → List SymbolId → Prop}
  {P1 : Nat → PairContract SymM} {P : PairContract CheckM}
  (h : CheckWalk sc ρ Fit P1 P) {cfg : Config} {q q' : Queries} (hq : q.Walks sc ρ P q')
  (ha : cfg.annotations.Walks sc ρ P) {n : Nat} {ty ty1 ty2 pre1 pre2 result1 result2 : Ty}
  {args1 args2 parents : List Ty} {s s1 s2 : SymbolId} {params1 params2 decls : List SymbolId}
include h

theorem annotationsConform_walks (ha : cfg.annotations.Walks sc ρ P)
    (h1 : sc.In n ty1) (h2 : sc.In n ty2) : P n (annotationsConform cfg ty1 ty2)
    (annotationsConform cfg (ρ.move ty1) (ρ.move ty2)) sc.In :=
  h.ite (by simp) (ha h1 h2) h.bool

/-- A type under the names of a list that is long enough. -/
theorem renamed_walks {src names : List SymbolId} (fits : src.length ≤ names.length)
    (hnames : sc.In n names) (hty : sc.In n ty) : P n (onTable (substSym cfg.fuel src names ty))
    (onTable (substSym cfg.fuel (ρ.move src) (ρ.move names) (ρ.move ty))) sc.In :=
  h.lift fun _ w => substSym_walks w cfg.fuel (w.fit fits) hnames n ty (Nat.le_refl _) hty

theorem cloned_walks (hparams : sc.In n params1) :
    P n (onTable (cloneSymbols cfg.fuel params1)) (onTable (cloneSymbols cfg.fuel (ρ.move params1)))
      fun m copies => copies.length = params1.length ∧ sc.In m copies :=
  h.lift fun _ w => cloneSymbols_walks w cfg.fuel hparams

/-! ## Structure -/

section Structure
include hq

theorem specializesMember_walks (hty : sc.In n ty) (h1 : sc.In n s1)
    (h2 : sc.In n s2) (depth : Depth) : P n (specializesMember cfg q ty s1 s2 depth)
      (specializesMember cfg q' (ρ.move ty) (ρ.move s1) (ρ.move s2) depth) sc.In := by
  refine h.readTable_bind fun t t' ht reads hn => ?_
  have fits2 := ht.records (h2.mono hn)
  simp only [reads.get]
  refine h.bind (h.lift fun _ w => substThis_walks
    w cfg.fuel _ (hty.mono hn) _ _ (Nat.le_refl _) fits2.info) fun info2 m hm hinfo2 => ?_
  have hty := hty.mono (Nat.le_trans hn hm)
  have h1 := h1.mono (Nat.le_trans hn hm)
  have member :=
    h.lift fun b w => (memberType_walks w hty h1 : P1 b m (memberType cfg.fuel ty s1) _ _)
  refine h.ite (by simp) ?_ (h.ite (by simp) ?_ (h.ite (by simp) ?_ h.bool))
  · refine h.bind (h.lift fun _ w => memberInfo_walks w hty h1) fun info1 k hk hinfo1 =>
      h.ite (by simp) h.bool ?_
    exact h.andThen (hq.sub hinfo1 (hinfo2.mono hk) depth) fun _ _ => h.ret (by simp) trivial
  · refine h.ite (by simp) h.bool (h.bind member fun member k hk hmember => ?_)
    refine h.readTable_bind fun {k'} t1 t1' ht1 reads1 hn1 => ?_
    have within : ∀ bounds : Ty × Ty, sc.In k' bounds → P k' (do
          if !(← q.sub bounds.1 member depth) then return false
          q.sub member bounds.2 depth) (do
          if !(← q'.sub (ρ.move bounds).1 (ρ.move member) depth) then return false
          q'.sub (ρ.move member) (ρ.move bounds).2 depth) sc.In := fun bounds hbounds =>
      h.andThen (hq.sub hbounds.1 (hmember.mono hn1) depth) fun _ hk' =>
        hq.sub (hmember.mono (by omega)) (hbounds.2.mono hk') depth
    rw [reads1.boundsOf]
    have declared := within _ (ht1.boundsOf (h2.mono (show n ≤ k' by omega)))
    cases info2 with
    | bounds lo hi =>
      have hinfo2 := hinfo2.mono (Nat.le_trans hk hn1)
      exact within (lo, hi) ⟨hinfo2.bounds_lo, hinfo2.bounds_hi⟩
    | _ => exact declared
  · refine h.ite (by simp) h.bool (h.bind member fun member k hk hmember => ?_)
    exact hq.same hmember (hinfo2.mono hk)

theorem specializes_walks (hty : sc.In n ty) (hs : sc.In n s) (depth : Depth) :
    P n (specializes cfg q ty s depth) (specializes cfg q' (ρ.move ty) (ρ.move s) depth) sc.In := by
  refine h.bind (typeSymbol_checks h hty) fun tsym m hm _ => h.ite (by simp) h.bool ?_
  refine h.readTable_bind fun {m'} t t' ht reads hn => ?_
  rw [reads.name, reads.owner]
  have members : ∀ k, m' ≤ k → P k (do
      let alternatives ← findMember cfg.fuel ty (t.name s)
      alternatives.anyM fun m =>
        if m == s then return true else specializesMember cfg q ty m s depth : CheckM Bool) (do
      let alternatives ← findMember cfg.fuel (ρ.move ty) (t.name s)
      alternatives.anyM fun m => if m == ρ.move s then return true
        else specializesMember cfg q' (ρ.move ty) m (ρ.move s) depth) sc.In := by
    refine fun k hk => h.bind (h.lift fun _ w => findMember_walks w (hty.mono (by omega)) _)
      fun found k' hk' hfound => ?_
    refine h.anyM fun c mem k'' hk'' => h.ite (by simp) (h.pure rfl fun _ _ => trivial) ?_
    exact specializesMember_walks h hq (hty.mono (by omega))
      ((hfound c mem).mono hk'') (hs.mono (by omega)) depth
  refine h.ite (by simp) ?_ (members _ (Nat.le_refl _))
  exact h.orElse (h.lift fun _ w => containsNull_walks w (ht.owner (hs.mono (by omega)))) members

theorem conformsToRefinement_walks (hty : sc.In n ty)
    (hparents : sc.In n parents) (hdecls : sc.In n decls)
    (depth : Depth) : P n (conformsToRefinement cfg q ty parents decls depth)
      (conformsToRefinement cfg q' (ρ.move ty) (ρ.move parents) (ρ.move decls) depth) sc.In := by
  refine h.andThen (h.allM fun parent mem k hk => hq.sub (hty.mono hk)
    ((hparents parent mem).mono hk) depth) fun k hk =>
    h.allM fun d mem k' hk' => ?_
  exact specializes_walks h hq (hty.mono (by omega)) ((hdecls d mem).mono (by omega)) depth

/-- The variables made here are instantiated here. -/
theorem conformsToExistential_walks {F : VarId → Prop} (hv : ∀ {n : Nat} {origin : Ty}, sc.In
    n origin → P n (freshVar origin {}) (freshVar (ρ.move origin) {})
      fun _ ty => ∃ v, ty = .var v ∧ sc.var v ∧ F v) {depth : Depth}
    (hs : ∀ {m : Nat} (g : SolveGroup) (k : Nat) (progress : List Progress) {u : Unknown × Nat},
      sc.In m g.unknowns → (∀ w ∈ g.unknowns, F w.var) → u.1 ∈ g.unknowns → Attempts P m
      (solveOne cfg q g depth k progress u) (solveOne cfg q' (ρ.move g) depth k progress (ρ.move u))
        fun _ _ => True)
    (hty : sc.In n ty) {quantified : List SymbolId}
      (hquantified : sc.In n quantified) {body : Ty} (hbody : sc.In n body) :
    P n (conformsToExistential cfg q ty quantified body depth)
      (conformsToExistential cfg q' (ρ.move ty) (ρ.move quantified) (ρ.move body) depth) sc.In := by
  refine h.bind (cloned_walks h hquantified) fun fresh m hm ⟨length, hfresh⟩ => ?_
  refine h.bind (h.mapM (Q := fun _ ty => ∃ v, ty = Ty.var v ∧ sc.var v ∧ F v)
    (fun _ _ _ _ made => made) fun s mem k hk => h.readTable_bind fun t t' ht reads hn =>
    ?_) fun tvars m1 hm1 ⟨_, htvars⟩ => ?_
  · rw [reads.typeConstructor]
    exact hv (ht.typeConstructor ((hfresh s mem).mono (Nat.le_trans hk hn)))
  have hvars : sc.In m1 tvars := by
    intro ty mem
    obtain ⟨v, rfl, hv, -⟩ := htvars ty mem
    exact .var hv
  have mine : ∀ v, Ty.var v ∈ tvars → sc.var v ∧ F v := by
    intro v mem
    obtain ⟨v', heq, hv'⟩ := htvars _ mem
    cases heq
    exact hv'
  refine h.bind (renamed_walks h (Nat.le_of_eq length.symm)
    (hfresh.mono hm1) (hbody.mono (by omega))) fun body1 m2 hm2 hbody1 => ?_
  refine h.bind (h.lift fun _ w => substTypes_walks
    w cfg.fuel fresh (hvars.mono hm2) _ body1 (Nat.le_refl _) hbody1) fun body2 m3 hm3 hbody2 =>
    h.andThen (hq.sub (hty.mono (by omega)) hbody2 depth) fun m4 hm4 => ?_
  have variances : (ρ.move fresh).map (fun _ => Variance.invariant) = fresh.map fun _ =>
    Variance.invariant := by
    rw [move_list, List.map_map]
    rfl
  rw [variances]
  refine h.bind (solve_walks h hq hs mine (hfresh.mono (by omega)) _ false) fun r m5 hm5 hr => ?_
  cases r with
  | error e => exact h.bool
  | ok insts =>
    have within : P m5 (withinBounds cfg q .noPrefix .none fresh insts) _ _ :=
      withinBounds_walks h hq .noPrefix (sc.in_none _) (hfresh.mono (by omega)) (hr insts rfl)
    rwa [move_noPrefix, move_absent] at within

theorem matchingParams_walks (h1 : sc.In n params1) (h2 : sc.In n params2) (java1 java2 : Bool) :
    P n (matchingParams cfg q params1 params2 java1 java2)
      (matchingParams cfg q' (ρ.move params1) (ρ.move params2) java1 java2) sc.In := by
  unfold matchingParams
  rw [zip_move]
  refine h.allM fun (p1, p2) mem k hk => ?_
  rw [move_pair]
  refine h.readTable_bind fun t t' ht reads hn => ?_
  have pair := (h1.zip h2 _ mem).mono (Nat.le_trans hk hn)
  have info1 := ht.info pair.1
  have info2 := ht.info pair.2
  rw [reads.info, reads.info]
  refine h.bind (typeSymbol_checks h info1) fun s1 k1 hk1 _ => ?_
  refine h.bind (typeSymbol_checks h (info2.mono hk1)) fun s2 k2 hk2 _ => ?_
  exact h.orElse (hq.same (info1.mono (by omega)) (info2.mono (by omega))) fun _ _ =>
    h.ret (by simp) trivial

section Results

variable (h1 : sc.In n params1) (h2 : sc.In n params2)
  (hr1 : sc.In n result1) (hr2 : sc.In n result2)
include h1 h2 hr1 hr2

theorem methodConforms_walks (flags1 flags2 : MethodFlags) (depth : Depth) :
    P n (methodConforms cfg q params1 result1 flags1 params2 result2 flags2 depth)
      (methodConforms cfg q' (ρ.move params1) (ρ.move result1) flags1 (ρ.move params2)
        (ρ.move result2) flags2 depth)
      sc.In := by
  by_cases fits : params1.length ≤ params2.length
  · refine h.ite (by simp) h.bool (h.andThen (matchingParams_walks h hq h1 h2 _ _) fun k hk => ?_)
    exact h.bind (renamed_walks h fits (h2.mono hk) (hr1.mono hk)) fun _ k' hk' hrenamed =>
      hq.sub hrenamed (hr2.mono (by omega)) depth
  · have unlike : params1.length ≠ params2.length := fun eq => fits (Nat.le_of_eq eq)
    simp only [methodConforms, Renaming.methodConforms,
      length_move, bne_iff_ne.2 unlike, Bool.true_or, if_true]
    exact h.bool

theorem lambdaConforms_walks {names : List SymbolId}
    (hnames : sc.In n names) (fits1 : params1.length ≤ names.length)
    (fits2 : params2.length ≤ names.length) (renameLeft : Bool) (depth : Depth) :
    P n (lambdaConforms cfg q names params1 result1 params2 result2 renameLeft depth)
      (lambdaConforms cfg q' (ρ.move names) (ρ.move params1)
        (ρ.move result1) (ρ.move params2) (ρ.move result2) renameLeft depth) sc.In := by
  have left : ∀ {k : Nat} {ty : Ty}, n ≤ k → sc.In k ty →
      P k (onTable (if renameLeft then substSym cfg.fuel params1 names ty else return ty))
        (onTable (if renameLeft then
          substSym cfg.fuel (ρ.move params1) (ρ.move names) (ρ.move ty) else return ρ.move ty))
        sc.In := fun {k ty} hk hty => h.lift fun _ w => w.ite (by simp)
    (substSym_walks w cfg.fuel (w.fit fits1) (hnames.mono hk) k ty (Nat.le_refl _) hty)
      (w.ret rfl hty)
  unfold lambdaConforms Renaming.lambdaConforms
  rw [zip_move]
  refine h.andThen (h.allM fun (p1, p2) mem k hk => ?_) fun k hk => ?_
  · rw [move_pair]
    refine h.readTable_bind fun t t' ht reads hn => ?_
    have pair := (h1.zip h2 _ mem).mono (Nat.le_trans hk hn)
    rw [reads.paramBounds]
    refine h.bind (renamed_walks h fits2 (hnames.mono (by omega)) (ht.paramBounds pair.2))
      fun bounds2 k1 hk1 hbounds2 => ?_
    refine h.readTable_bind fun t1 t1' ht1 reads1 hn1 => ?_
    rw [reads1.paramBounds]
    refine h.bind (left (by omega) (ht1.paramBounds (pair.1.mono (Nat.le_trans hk1 hn1))))
      fun bounds1 k2 hk2 hbounds1 => ?_
    exact hq.sub (hbounds2.mono (by omega)) hbounds1 depth
  · refine h.bind (left hk (hr1.mono hk)) fun result1 k1 hk1 hresult1 => ?_
    refine h.bind (renamed_walks h fits2 (hnames.mono (by omega)) (hr2.mono (by omega)))
      fun result2 k2 hk2 hresult2 => ?_
    exact hq.sub (hresult1.mono hk2) hresult2 depth

end Results

include ha

theorem constructorsConform_walks (h1 : sc.In n ty1)
    (h2 : sc.In n ty2) (depth : Depth) : P n (constructorsConform cfg q ty1 ty2 depth)
    (constructorsConform cfg q' (ρ.move ty1) (ρ.move ty2) depth) sc.In := by
  refine h.bind (typeSymbol_checks h h1) fun _ k1 hk1 _ => h.ite (by simp) h.bool ?_
  refine h.bind (typeSymbol_checks h (h2.mono hk1)) fun _ k2 hk2 _ => h.ite (by simp) h.bool ?_
  refine h.bind (h.lift fun _ w => normalize_walks w (h1.mono (by omega)))
    fun norm1 k3 hk3 hnorm1 => ?_
  refine h.bind (h.lift fun _ w => normalize_walks w (h2.mono (by omega)))
    fun norm2 k4 hk4 hnorm2 => ?_
  have bare1 := (hnorm1.mono hk4).withoutAnnotations
  have bare2 := hnorm2.withoutAnnotations
  rw [withoutAnnotations_move, withoutAnnotations_move]
  revert bare1 bare2
  cases norm1.withoutAnnotations with
  | poly tparams1 result1 =>
    rw [move_poly]
    cases norm2.withoutAnnotations with
    | poly tparams2 result2 =>
      rw [move_poly]
      intro bare1 bare2
      by_cases fits : tparams1.length = tparams2.length
      · refine h.ite (by simp) h.bool (h.readTable_bind fun {k5} t t' ht reads hn =>
          h.ite (by rw [reads.variancesConform]) h.bool ?_)
        -- once the parameters have names, whether the left side's own or copies
        have named : ∀ names renameLeft k, k5 ≤ k →
          names.length = tparams1.length → sc.In k names → P k (do
              if !(← lambdaConforms cfg q names tparams1
                result1 tparams2 result2 renameLeft depth) then return false
              annotationsConform cfg norm1 norm2) (do
              if !(← lambdaConforms cfg q' (ρ.move names) (ρ.move tparams1) (ρ.move result1)
                (ρ.move tparams2) (ρ.move result2) renameLeft depth) then return false
              annotationsConform cfg (ρ.move norm1) (ρ.move norm2)) sc.In := by
          intro names renameLeft k hk length hnames
          have hk := Nat.le_trans hn hk
          refine h.andThen (lambdaConforms_walks h hq (bare1.poly_params.mono hk)
            (bare2.poly_params.mono hk) (bare1.poly_result.mono hk)
            (bare2.poly_result.mono hk) hnames (Nat.le_of_eq length.symm)
            (Nat.le_of_eq (fits.symm.trans length.symm)) renameLeft depth) fun k' hk' => ?_
          exact annotationsConform_walks h ha (hnorm1.mono (by omega)) (hnorm2.mono (by omega))
        have params := bare1.poly_params.mono hn
        have copies := (cloned_walks h params : P _ (onTable (cloneSymbols cfg.fuel tparams1)) _ _)
        cases tparams1 with
        | nil => exact h.bind copies fun names k hk fresh => named names true k hk fresh.1 fresh.2
        | cons p ps =>
          simp only [move_cons, reads.owner, reads.kind]
          refine h.ite (by simp) (named (p :: ps) _ _ (Nat.le_refl _) rfl params) ?_
          exact h.bind copies fun names k hk fresh => named names _ k hk fresh.1 fresh.2
      · simp only [length_move, bne_iff_ne.2 fits, if_true]
        exact h.bool
    | _ => exact fun _ _ => h.bool
  | _ => exact fun _ _ => h.bool

end Structure

/-! ## Equivalence -/

section Equivalence
include hq

theorem singleMatchesModule_walks {pre clsPre : Ty} (hpre : sc.In n pre) (hclsPre : sc.In n clsPre)
    (s cls : SymbolId) (args : List Ty) : P n (singleMatchesModule cfg q s pre cls clsPre args)
      (singleMatchesModule cfg q' (ρ.move s) (ρ.move pre)
        (ρ.move cls) (ρ.move clsPre) (ρ.move args)) sc.In := by
  refine h.readTable_bind fun t t' _ reads hn => h.ite (by simp [reads.get]) ?_ h.bool
  rw [reads.get, companion_move]
  exact sameEntity_walks h hq (hpre.mono hn) (hclsPre.mono hn) s _

theorem subScope_walks {decls1 decls2 : List SymbolId} (h1 : sc.In n decls1) (h2 : sc.In n decls2) :
    P n (subScope cfg q decls1 decls2) (subScope cfg q' (ρ.move decls1) (ρ.move decls2)) sc.In := by
  refine h.allM fun d2 mem2 k hk => h.readTable_bind fun t t' ht reads hn => ?_
  have fits2 := ht.records ((h2 d2 mem2).mono (Nat.le_trans hk hn))
  refine h.anyM fun d1 mem1 k' hk' => h.readTable_bind fun {l} t1 t1' ht1 reads1 hn1 => ?_
  have fits1 := ht1.records ((h1 d1 mem1).mono (show n ≤ l by omega))
  have self : sc.In l (Ty.this (t1.get d1).owner) := .this fits1.owner
  rw [reads.get, reads1.get]
  refine h.ite (by simp) (h.pure rfl fun _ _ => trivial) ?_
  refine h.bind (h.lift fun _ w => substThis_walks w cfg.fuel _ self _ _ (Nat.le_refl _)
    (fits2.info.mono (by omega))) fun info2 k'' hk'' hinfo2 => ?_
  exact hq.same (fits1.info.mono hk'') hinfo2

section Results

variable (h1 : sc.In n params1) (h2 : sc.In n params2)
  (hr1 : sc.In n result1) (hr2 : sc.In n result2)
include h1 h2 hr1 hr2

theorem sameBinders_walks : P n (sameBinders cfg q params1 result1 params2 result2)
    (sameBinders cfg q' (ρ.move params1) (ρ.move result1) (ρ.move params2) (ρ.move result2))
    sc.In := by
  by_cases fits : params1.length = params2.length
  · refine h.ite (by simp) h.bool ?_
    rw [zip_move]
    refine h.andThen (h.allM fun (p1, p2) mem k hk => ?_) fun k hk => ?_
    · rw [move_pair]
      refine h.readTable_bind fun t t' ht reads hn => ?_
      have pair := (h1.zip h2 _ mem).mono (Nat.le_trans hk hn)
      rw [reads.paramBounds, reads.paramBounds]
      exact h.bind (renamed_walks h (Nat.le_of_eq fits.symm)
        (h1.mono (by omega)) (ht.paramBounds pair.2)) fun bounds2 k' hk' hbounds2 =>
        hq.same ((ht.paramBounds pair.1).mono hk') hbounds2
    · exact h.bind (renamed_walks h (Nat.le_of_eq fits.symm) (h1.mono hk) (hr2.mono hk))
        fun _ k' hk' hrenamed =>
        hq.same (hr1.mono (by omega)) hrenamed
  · simp only [sameBinders, Renaming.sameBinders, length_move, bne_iff_ne.2 fits, if_true]
    exact h.bool

theorem sameMethods_walks (flags1 flags2 : MethodFlags) :
    P n (sameMethods cfg q params1 result1 flags1 params2 result2 flags2) (sameMethods cfg q'
    (ρ.move params1) (ρ.move result1) flags1 (ρ.move params2) (ρ.move result2) flags2) sc.In := by
  refine h.ite (by simp) h.bool (h.readTable_bind fun {m} t t' ht reads hn => ?_)
  have infos : ∀ {ps : List SymbolId}, sc.In n ps → sc.In m (ps.map t.info) :=
    fun hps => (hps.mono hn).map fun _ => ht.info
  have same := sameAll_walks h hq (infos h1) (infos h2)
  rw [reads.infosOf, reads.infosOf]
  by_cases fits : params1.length = params2.length
  · refine h.andThen same fun k hk => ?_
    exact h.bind (renamed_walks h (Nat.le_of_eq fits.symm)
      (h1.mono (by omega)) (hr2.mono (by omega))) fun _ k' hk' hrenamed =>
      hq.same (hr1.mono (by omega)) hrenamed
  · have unlike : (params1.map t.info).length ≠ (params2.map t.info).length := by simpa using fits
    simp only [Queries.sameAll, length_move, if_neg unlike]
    exact h.bool

end Results

omit hq in
theorem settledIf_walks (hx : P n x y sc.In) : P n (settledIf x) (settledIf y) fun _ _ => True :=
  h.bind hx fun b _ _ _ => h.pure (by cases b <;> rfl) fun _ _ => trivial

omit hq in
theorem answer_walks (hx : P n x y sc.In) :
    P n (do return some (← x)) (do return some (← y)) fun _ _ => True :=
  h.bind hx fun _ _ _ _ => h.pure rfl fun _ _ => trivial

omit hq in
theorem decided_walks (answer : Option Bool) : P n (pure answer) (pure answer) fun _ _ => True :=
  h.pure (by cases answer <;> rfl) fun _ _ => trivial

theorem sameRefs_walks (h1 : sc.In n (Ty.ref pre1 s1 args1)) (h2 : sc.In n (Ty.ref pre2 s2 args2)) :
    P n (sameShape cfg q (.ref pre1 s1 args1) (.ref pre2 s2 args2))
      (sameShape cfg q' (ρ.move (Ty.ref pre1 s1 args1)) (ρ.move (Ty.ref pre2 s2 args2)))
      fun _ _ => True := by
  rw [move_ref, move_ref]
  refine h.bind (sameEntity_walks h hq h1.ref_pre h2.ref_pre s1 s2) fun _ k hk _ => ?_
  refine h.ite (by simp) (decided_walks h _) (h.readTable_bind fun t t' _ reads hn => ?_)
  refine h.ite (by simp [reads.tparams]) (decided_walks h _) (settledIf_walks h ?_)
  exact sameAll_walks h hq (h1.ref_args.mono (by omega)) (h2.ref_args.mono (by omega))

theorem sameRefined_walks {parents1 parents2 : List Ty} {decls1 decls2 : List SymbolId}
    (h1 : sc.In n (Ty.refined parents1 decls1 s1)) (h2 : sc.In n (Ty.refined parents2 decls2 s2)) :
    P n (sameShape cfg q (.refined parents1 decls1 s1) (.refined parents2 decls2 s2))
      (sameShape cfg q' (ρ.move (Ty.refined parents1 decls1 s1))
        (ρ.move (Ty.refined parents2 decls2 s2)))
      fun _ _ => True := by
  rw [move_refined, move_refined]
  obtain ⟨hparents1, hdecls1, -⟩ := h1.refined_parts
  obtain ⟨hparents2, hdecls2, -⟩ := h2.refined_parts
  refine h.bind (sameAll_walks h hq hparents1 hparents2) fun _ k hk _ => ?_
  refine h.ite (by simp) (decided_walks h _) ?_
  refine h.bind (subScope_walks h hq (hdecls1.mono hk) (hdecls2.mono hk)) fun _ k' hk' _ => ?_
  refine h.ite (by simp) (decided_walks h _) (answer_walks h ?_)
  exact subScope_walks h hq (hdecls2.mono (by omega)) (hdecls1.mono (by omega))

theorem sameBounds_walks {lo1 hi1 lo2 hi2 : Ty} (h1 : sc.In n (Ty.bounds lo1 hi1))
    (h2 : sc.In n (Ty.bounds lo2 hi2)) : P n (sameShape cfg q (.bounds lo1 hi1) (.bounds lo2 hi2))
      (sameShape cfg q' (ρ.move (Ty.bounds lo1 hi1)) (ρ.move (Ty.bounds lo2 hi2))) fun _ _ =>
        True := by
  refine h.bind (hq.same h1.bounds_lo h2.bounds_lo) fun _ k hk _ => ?_
  refine h.ite (by simp) (decided_walks h _) (answer_walks h ?_)
  exact hq.same (h1.bounds_hi.mono hk) (h2.bounds_hi.mono hk)

/-- Shapes are compared alike; two that differ leave the question open. -/
theorem sameShape_walks (h1 : sc.In n ty1) (h2 : sc.In n ty2) :
    P n (sameShape cfg q ty1 ty2) (sameShape cfg q' (ρ.move ty1) (ρ.move ty2)) fun _ _ => True := by
  cases ty1 <;> cases ty2 <;> try exact decided_walks h none
  case ref.ref => exact sameRefs_walks h hq h1 h2
  case ref.single =>
    rw [move_ref]
    exact settledIf_walks h (singleMatchesModule_walks h hq h2.single_pre h1.ref_pre _ _ _)
  case single.ref =>
    rw [move_ref]
    exact settledIf_walks h (singleMatchesModule_walks h hq h1.single_pre h2.ref_pre _ _ _)
  case single.single =>
    exact settledIf_walks h (sameEntity_walks h hq h1.single_pre h2.single_pre _ _)
  case this.this s1 s2 => exact settledIf_walks h (h.ret (move_beq s1 s2) trivial)
  case const.const => exact decided_walks h _
  case refined.refined => exact sameRefined_walks h hq h1 h2
  case method.method =>
    exact answer_walks h (sameMethods_walks h hq h1.method_params h2.method_params h1.method_result
      h2.method_result _ _)
  case nullary.nullary => exact answer_walks h (hq.same h1.nullary_result h2.nullary_result)
  case poly.poly =>
    exact answer_walks h (sameBinders_walks h hq h1.poly_params h2.poly_params h1.poly_result
      h2.poly_result)
  case exist.exist =>
    exact answer_walks h (sameBinders_walks h hq h1.exist_quantified h2.exist_quantified
      h1.exist_body h2.exist_body)
  case bounds.bounds => exact sameBounds_walks h hq h1 h2
  case notNull.notNull => exact settledIf_walks h (hq.same h1.notNull_body h2.notNull_body)

theorem boundsContain_walks {bounds : Ty} (hbounds : sc.In n bounds) (hty : sc.In n ty) : P
    n (boundsContain cfg q bounds ty) (boundsContain cfg q' (ρ.move bounds) (ρ.move ty)) sc.In := by
  refine h.bind (h.lift fun _ w => refBounds_walks w hbounds) fun (lo, hi) k hk hp => ?_
  exact h.andThen (hq.sub hp.1 (hty.mono hk) _) fun k' hk' =>
    hq.sub (hty.mono (by omega)) (hp.2.mono hk') _

section Operands

variable (h1 : sc.In n ty1) (h2 : sc.In n ty2)
include h1 h2

theorem samePathEnds_walks : P n (samePathEnds cfg q ty1 ty2)
    (samePathEnds cfg q' (ρ.move ty1) (ρ.move ty2)) sc.In := by
  refine h.bind (h.lift fun _ w => followPath_walks w h1) fun end1 k hk hend1 => ?_
  refine h.bind (h.lift fun _ w => followPath_walks w (h2.mono hk)) fun end2 k' hk' hend2 => ?_
  exact h.ite (by simp) h.bool (hq.same (hend1.mono hk') hend2)

theorem sameExpanded_walks : P n (sameExpanded cfg q ty1 ty2)
    (sameExpanded cfg q' (ρ.move ty1) (ρ.move ty2)) sc.In := by
  refine h.bind (h.lift fun _ w => expand_walks w h1) fun norm1 k hk hnorm1 => ?_
  refine h.bind (h.lift fun _ w => expand_walks w (h2.mono hk)) fun norm2 k' hk' hnorm2 => ?_
  exact h.ite (by simp) h.bool (hq.same (hnorm1.mono hk') hnorm2)

variable (he : ∀ {k : Nat} {v : VarId} {ty : Ty} (onLeft : Bool), sc.In k v →
  sc.In k ty → ty1 = .var v ∨ ty2 = .var v → P k (registerEquality q v ty onLeft)
  (registerEquality q' (ρ.move v) (ρ.move ty) onLeft) sc.In)
include ha he

theorem sameOtherwise_walks : P n (sameOtherwise cfg q ty1 ty2)
    (sameOtherwise cfg q' (ρ.move ty1) (ρ.move ty2)) sc.In := by
  have bare : P n (do
      if !(← annotationsConform cfg ty1 ty2) then return false
      if !(← annotationsConform cfg ty2 ty1) then return false
      q.same ty1.withoutAnnotations ty2.withoutAnnotations) (do
      if !(← annotationsConform cfg (ρ.move ty1) (ρ.move ty2)) then return false
      if !(← annotationsConform cfg (ρ.move ty2) (ρ.move ty1)) then return false
      q'.same (ρ.move ty1).withoutAnnotations (ρ.move ty2).withoutAnnotations) sc.In := by
    rw [withoutAnnotations_move, withoutAnnotations_move]
    refine h.andThen (annotationsConform_walks h ha h1 h2) fun k hk => ?_
    refine h.andThen (annotationsConform_walks h ha (h2.mono hk) (h1.mono hk)) fun k' hk' => ?_
    exact hq.same (h1.mono (by omega)).withoutAnnotations (h2.mono (by omega)).withoutAnnotations
  -- the last resort, for types that are neither wildcards nor variables nor annotated
  have plain : P n (do
      if ty1.isSingleton && ty2.isSingleton then
        if ← samePathEnds cfg q ty1 ty2 then return true
      sameExpanded cfg q ty1 ty2) (do
      if (ρ.move ty1).isSingleton && (ρ.move ty2).isSingleton then
        if ← samePathEnds cfg q' (ρ.move ty1) (ρ.move ty2) then return true
      sameExpanded cfg q' (ρ.move ty1) (ρ.move ty2)) sc.In := by
    refine h.ite (by simp) ?_ (sameExpanded_walks h hq h1 h2)
    exact h.orElse (samePathEnds_walks h hq h1 h2) fun k hk =>
      sameExpanded_walks h hq (h1.mono hk) (h2.mono hk)
  cases ty1 with
  | boundedWildcard bounds => exact boundsContain_walks h hq h1.wildcard_bounds h2
  | var v =>
    cases ty2 with
    | boundedWildcard bounds => exact boundsContain_walks h hq h2.wildcard_bounds h1
    | _ => exact he true h1.var_id h2 (.inl rfl)
  | annotated annotations body =>
    cases ty2 with
    | boundedWildcard bounds => exact boundsContain_walks h hq h2.wildcard_bounds h1
    | var v => exact he false h2.var_id h1 (.inr rfl)
    | _ => exact bare
  | _ =>
    cases ty2 with
    | boundedWildcard bounds => exact boundsContain_walks h hq h2.wildcard_bounds h1
    | var v => exact he false h2.var_id h1 (.inr rfl)
    | annotated annotations body => exact bare
    | _ => exact plain

theorem sameStep_walks : P n (sameStep cfg q ty1 ty2)
    (sameStep cfg q' (ρ.move ty1) (ρ.move ty2)) sc.In := by
  refine h.ite (by simp) h.bool (h.ite (by simp) h.bool ?_)
  refine h.ite (by simp) (isPackagePrefix_walks h h2)
    (h.ite (by simp) (isPackagePrefix_walks h h1) ?_)
  refine h.bind (sameShape_walks h hq h1 h2) fun answer k hk _ => ?_
  cases answer with
  | some answer => exact h.bool
  | none => exact sameOtherwise_walks h hq ha (h1.mono hk) (h2.mono hk) he

end Operands

end Equivalence

/-! ## Conformance -/

section Conformance
include hq

section Passes

variable (h1 : sc.In n ty1) (h2 : sc.In n ty2)
include h1 h2

theorem nullConforms_walks (depth : Depth) : P n (nullConforms cfg q ty1 ty2 depth)
    (nullConforms cfg q' (ρ.move ty1) (ρ.move ty2) depth) sc.In := by
  have widened : P n (do
      let widened ← widen cfg.fuel ty2
      if widened = ty2 then return false
      q.sub ty1 widened depth : CheckM Bool) (do
      let widened ← widen cfg.fuel (ρ.move ty2)
      if widened = ρ.move ty2 then return false
      q'.sub (ρ.move ty1) widened depth) sc.In :=
    h.bind (h.lift fun _ w => widen_walks w h2) fun _ k hk hwide =>
      h.ite move_inj h.bool (hq.sub (h1.mono hk) hwide depth)
  cases ty2 with
  | ref pre s args =>
    rw [move_ref]
    exact h.lift fun _ w => containsNull_walks w h2.ref_sym
  | this s => exact widened
  | single pre s => exact widened
  | _ => exact h.bool

/-- Both sides in normal form, if that changes one of them. -/
theorem subNormal_walks (hx : ∀ k, n ≤ k → P k x y sc.In) (depth : Depth) : P n (do
      let norm1 ← normalize cfg.fuel ty1
      let norm2 ← normalize cfg.fuel ty2
      if norm1 = ty1 && norm2 = ty2 then x else q.sub norm1 norm2 depth : CheckM Bool) (do
      let norm1 ← normalize cfg.fuel (ρ.move ty1)
      let norm2 ← normalize cfg.fuel (ρ.move ty2)
      if norm1 = ρ.move ty1 && norm2 = ρ.move ty2 then y else q'.sub norm1 norm2 depth) sc.In := by
  refine h.bind (h.lift fun _ w => normalize_walks w h1) fun norm1 k hk hnorm1 => ?_
  refine h.bind (h.lift fun _ w => normalize_walks w (h2.mono hk)) fun norm2 k' hk' hnorm2 => ?_
  exact h.ite (by simp) (hx k' (Nat.le_trans hk hk')) (hq.sub (hnorm1.mono hk') hnorm2 depth)

end Passes

variable (hd : ∀ {n : Nat} {l r : Ty}, sc.In n l → sc.In n r →
  P n (speculate (q.same l r)) (speculate (q'.same (ρ.move l) (ρ.move r))) sc.In)
include hd

theorem leftRef_walks (h1 : sc.In n (Ty.ref pre1 s1 args1)) (h2 : sc.In n ty2) (depth : Depth) :
    P n (leftRef cfg q pre1 s1 args1 ty2 depth)
      (leftRef cfg q' (ρ.move pre1) (ρ.move s1) (ρ.move args1) (ρ.move ty2) depth) sc.In := by
  unfold leftRef
  simp only [← move_ref]
  refine h.ite (by simp) h.bool (h.ite (by simp) (nullConforms_walks h hq h1 h2 depth)
    (h.readTable_bind fun t t' ht reads hn => ?_))
  have h1 := h1.mono hn
  have h2 := h2.mono hn
  have fits := ht.records h1.ref_sym
  simp only [reads.get]
  refine h.ite (by simp) ?_ (h.ite (by simp) ?_ (h.ite (by simp)
    (subNormal_walks h hq h1 h2 (fun _ _ => h.bool) depth) h.bool))
  · refine h.ite (by rw [reads.isRaw]) ?_ (h.ite (by simp)
      ?_ (h.ite (by simp) (hq.sub fits.info h2 depth) h.bool))
    · exact h.bind (h.lift fun _ w => rawToExistential_walks w h1) fun _ k hk hraw =>
        hq.sub hraw (h2.mono hk) depth
    · cases ty2 with
      | single pre2 s2 => exact sameEntity_walks h hq h1.ref_pre h2.single_pre _ s2
      | _ => exact h.bool
  · refine h.ite (by simp) h.bool (h.bind (h.lift fun _ w => upperBound_walks w h1)
      fun hi k hk hhi => ?_)
    exact h.andThen (differentConstructor_walks h hd (h1.mono hk) hhi) fun k' hk' =>
      hq.sub (hhi.mono hk') (h2.mono (by omega)) depth.decr

theorem finalPass_walks (h1 : sc.In n ty1) (h2 : sc.In n ty2) (depth : Depth) : P
    n (finalPass cfg q ty1 ty2 depth) (finalPass cfg q' (ρ.move ty1) (ρ.move ty2) depth) sc.In := by
  have wider : P n (do
      if depth.isExhausted then return false
      let wider ← underlying cfg.fuel ty1
      if wider = ty1 then return false
      q.sub wider ty2 depth.decr : CheckM Bool) (do
      if depth.isExhausted then return false
      let wider ← underlying cfg.fuel (ρ.move ty1)
      if wider = ρ.move ty1 then return false
      q'.sub wider (ρ.move ty2) depth.decr) sc.In := by
    refine h.ite (by simp) h.bool (h.bind (h.lift fun _ w => underlying_walks w h1)
      fun wider k hk hwide => ?_)
    exact h.ite move_inj h.bool (hq.sub hwide (h2.mono hk) depth.decr)
  cases ty1 with
  | ref pre1 s1 args1 =>
    rw [move_ref]
    exact leftRef_walks h hq hd h1 h2 depth
  | refined parents decls cls =>
    rw [move_refined]
    refine h.anyM fun parent mem k hk => ?_
    exact hq.sub ((h1.refined_parts.1 parent mem).mono hk) (h2.mono hk) depth
  | this s => exact wider
  | single pre s => exact wider
  | const value => exact wider
  | notNull body => exact wider
  | _ => exact h.bool

theorem rightRef_walks (h1 : sc.In n ty1) (h2 : sc.In n (Ty.ref pre2 s2 args2)) (depth : Depth) :
    P n (rightRef cfg q ty1 pre2 s2 args2 depth)
      (rightRef cfg q' (ρ.move ty1) (ρ.move pre2) (ρ.move s2) (ρ.move args2) depth) sc.In := by
  refine h.readTable_bind fun {m} t t' ht reads hn => ?_
  have h1 := h1.mono hn
  have h2 := h2.mono hn
  have fits := ht.records h2.ref_sym
  have last := fun k (hk : m ≤ k) =>
    (finalPass_walks h hq hd (h1.mono hk) (h2.mono hk) depth : P k (finalPass cfg _ _ _ _) _ _)
  have now := last _ (Nat.le_refl _)
  simp only [reads.get, ← move_ref]
  refine h.ite (by simp) (h.lift fun _ w => isNotNull_walks w h1)
    (h.ite (by simp) ?_ (h.ite (by simp) ?_ (h.ite
    (by simp) ?_ (h.ite (by simp) (subNormal_walks h hq h1 h2 last depth) now))))
  · exact h.orElse (h.lift fun _ w => isStable_walks w h1) last
  · refine h.ite (by rw [reads.isRaw]) ?_ (h.ite (by simp) (hq.sub h1 fits.info depth) now)
    exact h.bind (h.lift fun _ w => rawToExistential_walks w h2) fun _ k hk hraw =>
      hq.sub (h1.mono hk) hraw depth
  · refine h.bind (h.lift fun _ w => lowerBound_walks w h2) fun lo k hk hlo => ?_
    refine h.bind (differentConstructor_walks h hd (h2.mono hk) hlo) fun _ k' hk' _ =>
      h.ite (by simp) ?_ (last k' (by omega))
    exact h.orElse (hq.sub (h1.mono (by omega)) (hlo.mono hk') depth) fun k'' hk'' =>
      last k'' (by omega)

theorem refsConform_walks (h1 : sc.In n (Ty.ref pre1 s1 args1))
    (h2 : sc.In n (Ty.ref pre2 s2 args2)) (depth : Depth) :
    P n (refsConform cfg q pre1 s1 args1 pre2 s2 args2 depth)
      (refsConform cfg q' (ρ.move pre1) (ρ.move s1)
        (ρ.move args1) (ρ.move pre2) (ρ.move s2) (ρ.move args2) depth) sc.In := by
  have last := fun k (hk : n ≤ k) =>
    (rightRef_walks h hq hd (h1.mono hk) (h2.mono hk) depth : P k (rightRef cfg _ _ _ _ _ _) _ _)
  refine h.readTable_bind fun t t' _ reads hn => ?_
  rw [reads.tparams]
  have byBase : ∀ k, n ≤ k → P k (baseSearch cfg q pre1 s1 args1 pre2 s2 args2 depth t)
      (baseSearch cfg q' (ρ.move pre1) (ρ.move s1)
      (ρ.move args1) (ρ.move pre2) (ρ.move s2) (ρ.move args2) depth t') sc.In := by
    intro k hk
    unfold baseSearch
    simp only [← move_ref, reads.get]
    refine h.ite (by simp) (h.bind (h.lift fun _ w => baseType_walks w (h1.mono hk) s2)
      fun base k' hk' hbase => ?_) (last k hk)
    refine h.ite (by rw [move_bne, isPresent_move]) ?_ (last k' (by omega))
    exact h.orElse (hq.sub hbase (h2.mono (by omega)) depth.decr) fun k'' hk'' =>
      last k'' (by omega)
  refine h.bind (constructorConforms_walks h hq (h1.ref_pre.mono hn)
    (h2.ref_pre.mono hn) s1 s2 depth) fun _ k hk _ =>
    h.ite (by simp) ?_ (byBase k (by omega))
  exact h.orElse (argsConform_walks h hq depth (h1.ref_args.mono (by omega))
    (h2.ref_args.mono (by omega)) (t.tparams s1)) fun k' hk' => byBase k' (by omega)

variable (hx : ∀ {n : Nat} {ty : Ty} {quantified : List SymbolId} {body : Ty} (depth : Depth), sc.In
    n ty → sc.In n quantified → sc.In n body → P n
    (conformsToExistential cfg q ty quantified body depth)
      (conformsToExistential cfg q' (ρ.move ty) (ρ.move quantified) (ρ.move body) depth) sc.In)
  (h1 : sc.In n ty1) (h2 : sc.In n ty2)
include hx h1 h2

theorem rightPass_walks (depth : Depth) : P n (rightPass cfg q ty1 ty2 depth)
    (rightPass cfg q' (ρ.move ty1) (ρ.move ty2) depth) sc.In := by
  have last := fun k (hk : n ≤ k) =>
    (finalPass_walks h hq hd (h1.mono hk) (h2.mono hk) depth : P k (finalPass cfg _ _ _ _) _ _)
  cases ty2 with
  | ref pre2 s2 args2 =>
    rw [move_ref]
    exact rightRef_walks h hq hd h1 h2 depth
  | refined parents decls cls =>
    rw [move_refined]
    obtain ⟨hparents, hdecls, -⟩ := h2.refined_parts
    exact conformsToRefinement_walks h hq h1 hparents hdecls depth
  | exist quantified body =>
    simp only [move_exist] at last ⊢
    exact h.orElse (hx depth h1 h2.exist_quantified h2.exist_body) last
  | notNull body =>
    exact h.andThen (h.lift fun _ w => isNotNull_walks w h1) fun k hk =>
      hq.sub (h1.mono hk) (h2.notNull_body.mono hk) depth
  | method params2 result2 flags2 =>
    rw [move_method]
    cases ty1 with
    | method params1 result1 flags1 =>
      rw [move_method]
      exact methodConforms_walks h hq h1.method_params
        h2.method_params h1.method_result h2.method_result flags1 flags2 depth
    | _ => exact h.bool
  | nullary result2 =>
    cases ty1 with
    | nullary result1 => exact hq.sub h1.nullary_result h2.nullary_result depth
    | _ => exact h.bool
  | bounds lo2 hi2 =>
    cases ty1 with
    | bounds lo1 hi1 =>
      exact h.andThen (hq.sub h2.bounds_lo h1.bounds_lo depth) fun k hk =>
        hq.sub (h1.bounds_hi.mono hk) (h2.bounds_hi.mono hk) depth
    | _ => exact h.bool
  | _ => exact last n (Nat.le_refl _)

omit hd hx in
include ha in
theorem annotatedConforms_walks (depth : Depth) : P n (annotatedConforms cfg q ty1 ty2 depth)
    (annotatedConforms cfg q' (ρ.move ty1) (ρ.move ty2) depth) sc.In := by
  unfold annotatedConforms
  rw [withoutAnnotations_move, withoutAnnotations_move]
  exact h.andThen (hq.sub h1.withoutAnnotations h2.withoutAnnotations depth) fun k hk =>
    annotationsConform_walks h ha (h1.mono hk) (h2.mono hk)

variable (hb : ∀ {n : Nat} {v : VarId} {ty : Ty} (side : Side), sc.In n v → sc.In n ty →
    P n (registerBound cfg q side v ty) (registerBound cfg q' side (ρ.move v) (ρ.move ty)) sc.In)
  (hl : ∀ {n : Nat} {body body' : Nat → CheckM Bool}, (∀ level, P n (body level)
    (body' level) sc.In) → P n (atDeeperLevel body) (atDeeperLevel body') sc.In)
include ha hb hl

theorem leftPass_walks (depth : Depth) :
    P n (leftPass cfg q ty1 ty2 depth) (leftPass cfg q' (ρ.move ty1) (ρ.move ty2) depth) sc.In := by
  have right := rightPass_walks h hq hd hx h1 h2 depth
  cases ty1 with
  | annotated annotations body => exact annotatedConforms_walks h hq ha h1 h2 depth
  | boundedWildcard bounds =>
    exact h.bind (h.lift fun _ w => lowerBound_walks w h1.wildcard_bounds) fun _ k hk hlo =>
      hq.sub hlo (h2.mono hk) depth
  | var v => exact hb .upper h1.var_id h2
  | exist quantified body =>
    exact hl fun level => h.bind (h.onTable fun b => skolemize_walks (h.tables b) h1 level)
      fun _ k hk hopen => hq.sub hopen (h2.mono hk) depth
  | _ => exact right

theorem firstPass_walks (depth : Depth) : P n (firstPass cfg q ty1 ty2 depth)
    (firstPass cfg q' (ρ.move ty1) (ρ.move ty2) depth) sc.In := by
  have left := leftPass_walks h hq ha hd hx h1 h2 hb hl depth
  cases ty2 with
  | ref pre2 s2 args2 =>
    cases ty1 with
    | ref pre1 s1 args1 =>
      rw [move_ref, move_ref]
      exact refsConform_walks h hq hd h1 h2 depth
    | _ => exact left
  | annotated annotations body => exact annotatedConforms_walks h hq ha h1 h2 depth
  | boundedWildcard bounds =>
    exact h.bind (h.lift fun _ w => upperBound_walks w h2.wildcard_bounds) fun _ k hk hhi =>
      hq.sub (h1.mono hk) hhi depth
  | var v =>
    cases ty1 with
    | annotated annotations body => exact left
    | boundedWildcard bounds => exact left
    | _ => exact hb .lower h2.var_id h1
  | _ => exact left

theorem subStep_walks (depth : Depth) :
    P n (subStep cfg q ty1 ty2 depth) (subStep cfg q' (ρ.move ty1) (ρ.move ty2) depth) sc.In := by
  refine h.ite (by simp) h.bool (h.ite (by simp) h.bool ?_)
  refine h.ite (by simp) (isPackagePrefix_walks h h2)
    (h.ite (by simp) (isPackagePrefix_walks h h1) ?_)
  refine h.ite (by simp) (hq.same h1 h2) (h.readTable_bind fun t t' _ reads hn => ?_)
  exact h.ite (by rw [reads.isHigherKinded, reads.isHigherKinded])
    (constructorsConform_walks h hq ha (h1.mono hn) (h2.mono hn) depth)
    (firstPass_walks h hq ha hd hx (h1.mono hn) (h2.mono hn) hb hl depth)

end Conformance

end Conformance

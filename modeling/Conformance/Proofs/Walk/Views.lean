import Conformance.Proofs.Walk.Maps

/-! # Views of types, run twice -/

namespace Conformance

open Relabeling

variable {sc : Scope} {ρ : Relabeling} {b n : Nat} {Fit : List SymbolId → List SymbolId → Prop}
  {P : PairContract SymM}

/-! ## Views from a prefix -/

variable (sc ρ P) in
/-- A view of types in scope, from prefixes and classes in scope. -/
def View.Walks (see : View) : Prop := ∀ ⦃n ty pre owner⦄, sc.In n ty → sc.In n pre → sc.In n owner →
  P n (see ty pre owner) (see (ρ.move ty) (ρ.move pre) (ρ.move owner)) sc.In

variable (h : TableWalk sc ρ b Fit P)
include h

namespace View

theorem firstPresent_walks {α : Type} [Movable α] {f f' : α → SymM Ty} {xs : List α}
    (hf : ∀ a ∈ xs, ∀ m, n ≤ m → P m (f a) (f' (ρ.move a)) sc.In) :
    P n (firstPresent f xs) (firstPresent f' (ρ.move xs)) sc.In := by
  induction xs generalizing n with
  | nil => exact h.ret rfl .noType
  | cons a as ih =>
    refine h.bind (hf a List.mem_cons_self n (Nat.le_refl _)) fun ty m hm hty =>
      h.ite (by simp) (h.ret rfl hty) ?_
    exact ih (tail_later hf hm)

variable {fuel : Nat} {see : View} (hsee : see.Walks sc ρ P)
  {pre : Ty} {s : SymbolId} {args : List Ty} {ty : Ty}
include hsee

theorem expandAlias_walks (hpre : sc.In n pre) (hs : sc.In n s)
    (hargs : sc.In n args) : P n (expandAlias fuel see pre s args)
    (expandAlias fuel see (ρ.move pre) (ρ.move s) (ρ.move args)) sc.In := by
  refine h.bind (record_walks h hs) fun r m hm hr =>
    h.bind (hsee hr.info (hpre.mono hm) hr.owner) fun seen k hk hseen => ?_
  exact substTypes_walks h fuel r.tparams (hargs.mono (Nat.le_trans hm hk))
    k seen (Nat.le_refl _) hseen

theorem dealias_walks (k : Nat) (hty : sc.In n ty) :
    P n (dealias fuel see k ty) (dealias fuel see k (ρ.move ty)) sc.In := by
  induction k generalizing n ty with
  | zero => exact h.ret rfl hty
  | succ k ih =>
    unfold dealias
    cases ty with
    | ref pre s args =>
      rw [move_ref]
      refine h.bind (record_walks h hty.ref_sym) fun r m hm hr => ?_
      have hty := hty.mono hm
      refine h.ite (by simp) (h.ret (move_ref ..).symm hty) ?_
      exact h.bind (expandAlias_walks h hsee hty.ref_pre hty.ref_sym hty.ref_args) fun _ _ _ => ih
    | _ => exact h.ret (by simp) hty

theorem underlying_walks (hty : sc.In n ty) : P n (underlying see ty)
    (underlying see (ρ.move ty)) sc.In := by
  cases hty with
  | @this s hs =>
    have hs : sc.In n s := hs
    refine h.bind (record_walks h hs) fun r m hm hr => h.ite (by simp) (h.ret rfl hr.info) ?_
    exact h.get_bind fun t t' ht hr hn => h.ret (hr.typeRefOf s)
      (ht.typeRefOf (hs.mono (Nat.le_trans hm hn)))
  | @single pre s hpre hs =>
    have hpre : sc.In n pre := hpre
    refine h.bind (record_walks h hs) fun r m hm hr => ?_
    refine h.bind (hsee hr.info (hpre.mono hm) hr.owner) fun info k hk hinfo => ?_
    cases hinfo with
    | nullary hresult => exact h.ret rfl hresult
    | _ => exact h.ret rfl (by constructor <;> assumption)
  | const value => exact h.ret (move_constantType value).symm (Scope.in_constantType value)
  | notNull hbody | annotated _ hbody | exist _ hbody => exact h.ret rfl hbody
  | _ => exact h.ret rfl (by constructor <;> assumption)

theorem refBounds_walks (hty : sc.In n ty) : P n (refBounds fuel see ty)
    (refBounds fuel see (ρ.move ty)) sc.In := by
  have widest : P n (pure (Known.nothingType, Known.anyType))
    (pure (Known.nothingType, Known.anyType)) sc.In :=
    h.ret (by simp) ⟨Scope.in_nothingType, Scope.in_anyType⟩
  cases ty with
  | ref pre s args =>
    rw [move_ref]
    refine h.bind (record_walks h hty.ref_sym) fun r m hm hr =>
      h.get_bind fun {l} t t' ht reads hn => ?_
    have bounds := ht.boundsOf (hty.ref_sym.mono (Nat.le_trans hm hn))
    have hpre := fun {k} (hk : l ≤ k) => hty.ref_pre.mono (Nat.le_trans hm (Nat.le_trans hn hk))
    have hargs := fun {k} (hk : l ≤ k) => hty.ref_args.mono (Nat.le_trans hm (Nat.le_trans hn hk))
    rw [reads.boundsOf]
    generalize t.boundsOf s = p at bounds ⊢
    obtain ⟨lo, hi⟩ := p
    rw [move_pair]
    have applied := fun k (hk : l ≤ k) => substTypes_walks h fuel r.tparams (hargs hk) k
    refine h.bind (hsee bounds.1 (hpre (Nat.le_refl _)) (hr.owner.mono hn)) fun lo' k1 hk1 hlo => ?_
    refine h.bind (applied k1 hk1 lo' (Nat.le_refl _) hlo) fun lo'' k2 hk2 hlo' => ?_
    refine h.bind (hsee (bounds.2.mono (by omega)) (hpre (by omega)) (hr.owner.mono (by omega)))
      fun hi' k3 hk3 hhi => ?_
    refine h.bind (applied k3 (by omega) hi' (Nat.le_refl _) hhi) fun hi'' k4 hk4 hhi' => ?_
    exact h.ret rfl ⟨hlo'.mono (by omega), hhi'⟩
  | bounds lo hi =>
    cases hty with
    | bounds hlo hhi => exact h.ret rfl ⟨hlo, hhi⟩
  | _ => exact widest

theorem baseTypeUpTo_walks {cls : SymbolId} (k : Nat) (hty : sc.In n ty) : P n
    (baseTypeUpTo fuel see cls k ty) (baseTypeUpTo fuel see (ρ.move cls) k (ρ.move ty)) sc.In := by
  induction k generalizing n ty with
  | zero => exact h.ret rfl .noType
  | succ k ih =>
    have absent : ∀ m, P m (pure Ty.noType) (pure Ty.noType) sc.In := fun _ => h.ret rfl .noType
    have under := h.bind (underlying_walks h hsee hty) fun _ _ _ => ih
    unfold baseTypeUpTo
    cases ty with
    | ref pre s args =>
      have expanded := fun m hm =>
        (dealias_walks h hsee Limits.aliasSteps (hty.mono hm) : P
          m (dealias fuel see _ (.ref pre s args)) _ _)
      have bounds := fun m hm =>
        (refBounds_walks h hsee (hty.mono hm) : P m (refBounds fuel see (.ref pre s args)) _ _)
      rw [move_ref] at expanded bounds ⊢
      refine h.ite (by simp) (h.ret (move_ref ..).symm hty) ?_
      refine h.bind (record_walks h hty.ref_sym) fun r m hm hr => ?_
      have hty := hty.mono hm
      refine h.ite (by simp) ?_ (h.ite (by simp) ?_ (h.ite (by simp) ?_ (absent _)))
      · refine h.bind (isNonBottomSubClass_walks h hty.ref_sym cls) fun derives m1 hm1 _ =>
          h.ite (by simp) (absent _) ?_
        -- the first parent that derives from `cls` and has a base type there
        refine firstPresent_walks h fun parent mem m2 hm2 =>
          h.get_bind fun {m3} t t' ht reads hn => ?_
        have hparent : sc.In m3 parent := (hr.parents parent mem).mono (by omega)
        rw [reads.parentClass]
        refine h.ite (by simp) (absent _) ?_
        refine h.bind (isNonBottomSubClass_walks h (ht.parentClass hparent) cls)
          fun derives m3 hm3 _ =>
          h.ite (by simp) (absent _) ?_
        refine h.bind (hsee (hparent.mono hm3) (hty.ref_pre.mono (by omega))
          (hr.owner.mono (by omega))) fun seen m4 hm4 hseen =>
          h.ite (by simp) ?_ (h.bind (h.ret rfl hseen) fun _ _ _ => ih)
        exact h.bind (substTypes_walks h fuel r.tparams
          (hty.ref_args.mono (by omega)) m4 seen (Nat.le_refl _) hseen) fun _ _ _ => ih
      · exact h.bind (expanded m hm) fun ty' _ _ hty' =>
          h.ite (by simp [← move_ref]) (absent _) (ih hty')
      · refine h.bind (bounds m hm) fun p _ _ hp => ?_
        obtain ⟨lo, hi⟩ := p
        rw [move_pair]
        exact h.ite (by simp [← move_ref]) (absent _) (ih hp.2)
    | refined parents decls refinement =>
      rw [move_refined]
      refine h.ite (by simp) (h.ret (move_refined ..).symm hty) ?_
      cases hty with
      | refined hparents _ _ =>
        exact firstPresent_walks h fun parent mem m hm =>
          ih (Scope.In.mono (a := _) (hparents parent mem) hm)
    | exist qs body =>
      cases hty with
      | exist hqs hbody =>
        refine h.bind (ih hbody) fun found m hm hfound => h.ite (by simp) (h.ret rfl hfound) ?_
        refine h.get_bind fun t t' _ reads hn => h.ret ?_ ?_
        · rw [← move_existential, ← move_filter fun q => reads.mentionsSymbol found q]
          rfl
        · exact .existential ((Scope.In.mono (a := qs) hqs (Nat.le_trans hm hn)).filter _)
            (hfound.mono hn)
    | bounds lo hi =>
      cases hty with
      | bounds _ hhi => exact ih hhi
    | this | single | const | notNull | annotated => exact under
    | _ => exact absent _

end View

theorem asSeenFrom_walks (fuel : Nat) : View.Walks sc ρ P (asSeenFrom fuel) := by
  induction fuel with
  | zero => exact fun _ _ _ _ _ _ _ => h.exhausted
  | succ fuel ih =>
    intro n ty pre owner hty hpre howner
    unfold asSeenFrom
    refine h.ite (by simp) (h.ret rfl hty) (h.bind (record_walks h howner) fun r m hm hr => ?_)
    refine h.ite (by simp [← move_this]) (h.ret rfl (hty.mono hm)) ?_
    refine h.bind (substThis_walks h fuel owner (hpre.mono hm) m ty (Nat.le_refl _) (hty.mono hm))
      fun seen m1 hm1 hseen =>
      h.ite (by simp) (h.ret rfl hseen) ?_
    -- the base type of the prefix is seen with less fuel
    refine h.bind (View.baseTypeUpTo_walks h ih _ (hpre.mono (Nat.le_trans hm hm1)))
      fun base m2 hm2 hbase => ?_
    cases base with
    | ref pre' s args =>
      rw [move_ref]
      exact substTypes_walks h fuel r.tparams hbase.ref_args m2 seen (Nat.le_refl _)
        (hseen.mono hm2)
    | _ => exact h.ret rfl (hseen.mono hm2)

variable {fuel : Nat} {ty : Ty} (hty : sc.In n ty)
include hty

theorem dealias_walks : P n (dealias fuel ty) (dealias fuel (ρ.move ty)) sc.In :=
  View.dealias_walks h (asSeenFrom_walks h fuel) _ hty

theorem underlying_walks : P n (underlying fuel ty) (underlying fuel (ρ.move ty)) sc.In :=
  View.underlying_walks h (asSeenFrom_walks h fuel) hty

theorem refBounds_walks : P n (refBounds fuel ty) (refBounds fuel (ρ.move ty)) sc.In :=
  View.refBounds_walks h (asSeenFrom_walks h fuel) hty

theorem lowerBound_walks : P n (lowerBound fuel ty) (lowerBound fuel (ρ.move ty)) sc.In :=
  h.bind (refBounds_walks h hty) fun _ _ _ hp => h.ret rfl hp.1

theorem upperBound_walks : P n (upperBound fuel ty) (upperBound fuel (ρ.move ty)) sc.In :=
  h.bind (refBounds_walks h hty) fun _ _ _ hp => h.ret rfl hp.2

theorem baseType_walks (cls : SymbolId) : P n (baseType fuel ty cls)
    (baseType fuel (ρ.move ty) (ρ.move cls)) sc.In :=
  View.baseTypeUpTo_walks h (asSeenFrom_walks h fuel) _ hty

/-! ## Normal forms -/

theorem normalize_walks : P n (normalize fuel ty) (normalize fuel (ρ.move ty)) sc.In := by
  unfold normalize
  generalize Limits.aliasSteps = k
  induction k generalizing n ty with
  | zero => exact h.ret rfl hty
  | succ k ih =>
    unfold normalizeUpTo
    cases ty with
    | ref pre s args =>
      have kept : Ty.ref (ρ.move pre) (ρ.move s) (ρ.move args) = ρ.move (.ref pre s args) :=
        (move_ref ..).symm
      have see : View.Walks sc ρ P (asSeenFrom fuel) := asSeenFrom_walks h fuel
      rw [move_ref]
      refine h.bind (record_walks h hty.ref_sym) fun r m hm hr => ?_
      have hty := hty.mono hm
      refine h.ite (by simp) (h.ite (by simp) ?_ (h.ite (by simp) ?_ (h.ret kept hty))) ?_
      · exact h.bind (View.expandAlias_walks h see hty.ref_pre hty.ref_sym hty.ref_args)
          fun _ _ _ => ih
      · exact h.bind (see hr.info hty.ref_pre hr.owner) fun _ _ hk hseen =>
          h.ret (move_lambda ..) ((hr.tparams.mono hk).lambda hseen)
      · refine h.get_bind fun t t' _ reads hn => h.ite
          (by rw [kept, reads.isRaw]; simp) ?_ (h.ret kept (hty.mono hn))
        refine h.get_bind fun t t' ht reads hn' => h.ret ?_ ?_
        · rw [← move_lambda, move_ref, ← reads.paramRefs]
          rfl
        · have hr' := hr.tparams.mono (Nat.le_trans hn hn')
          have hty := hty.mono (Nat.le_trans hn hn')
          exact hr'.lambda (.ref hty.ref_pre hty.ref_sym (ht.paramRefs hr'))
    | _ => exact h.ret (by simp) hty

theorem widen_walks : P n (widen fuel ty) (widen fuel (ρ.move ty)) sc.In := by
  unfold widen
  generalize Limits.aliasSteps = k
  induction k generalizing n ty with
  | zero => exact h.ret rfl hty
  | succ k ih =>
    exact h.ite (by simp) (h.ret rfl hty) (h.bind (underlying_walks h hty) fun _ _ _ => ih)

theorem typeSymbol_walks : P n (typeSymbol fuel ty) (typeSymbol fuel (ρ.move ty)) sc.In := by
  unfold typeSymbol
  generalize Limits.aliasSteps = k
  induction k generalizing n ty with
  | zero => exact h.ret (by simp) (sc.in_none _)
  | succ k ih =>
    have under := h.bind (underlying_walks h hty : P n (underlying fuel ty) _ _) fun _ _ _ => ih
    have normal := fun m hm => (normalize_walks h (hty.mono hm) : P m (normalize fuel ty) _ _)
    unfold typeSymbolUpTo
    cases hty with
    | ref hpre hs hargs =>
      rw [move_ref] at normal ⊢
      refine h.bind (record_walks h hs) fun r m hm hr =>
        h.ite (by simp) ?_ (h.ret rfl (sc.mono hm hs))
      exact h.bind (normal m hm) fun expanded m1 hm1 hty' =>
        h.ite (by simp [← move_ref]) (h.ret rfl (sc.mono (Nat.le_trans hm hm1) hs)) (ih hty')
    | refined _ _ hcls =>
      rw [move_refined]
      exact h.ret rfl hcls
    | this hs => exact h.ret rfl hs
    | single | const => exact under
    | exist _ hbody | annotated _ hbody | notNull hbody | nullary hbody | poly _ hbody =>
      exact ih hbody
    | _ => exact h.ret (by simp) (sc.in_none _)

theorem isStable_walks : P n (isStable fuel ty) (isStable fuel (ρ.move ty)) sc.In := by
  induction fuel generalizing n ty with
  | zero => exact h.exhausted
  | succ fuel ih =>
    have normal := fun m hm => (normalize_walks h (hty.mono hm) : P m (normalize fuel ty) _ _)
    have upper := fun m hm => (upperBound_walks h (hty.mono hm) : P m (upperBound fuel ty) _ _)
    unfold isStable
    cases hty with
    | ref hpre hs hargs =>
      rw [move_ref] at normal upper ⊢
      refine h.ite (by simp) h.bool (h.bind (record_walks h hs) fun r m hm hr => ?_)
      refine h.ite (by simp) ?_ (h.ite (by simp) ?_ h.bool)
      · exact h.bind (normal m hm) fun _ _ _ hty' => h.ite (by simp [← move_ref]) h.bool (ih hty')
      · refine h.bind (upper m hm) fun hi _ _ hhi =>
          h.bind (typeSymbol_walks h hhi) fun cls _ _ hcls => ?_
        exact h.ite (by simp) h.bool (derives_walks h hcls (by decide))
    | notNull hbody | annotated _ hbody => exact ih hbody
    | _ => exact h.bool

theorem isNotNull_walks : P n (isNotNull fuel ty) (isNotNull fuel (ρ.move ty)) sc.In := by
  induction fuel generalizing n ty with
  | zero => exact h.exhausted
  | succ fuel ih =>
    have under := fun m hm =>
      h.bind (underlying_walks h (hty.mono hm) : P m (underlying fuel ty) _ _) fun _ _ _ => ih
    have normal := fun m hm => (normalize_walks h (hty.mono hm) : P m (normalize fuel ty) _ _)
    have upper := fun m hm => (upperBound_walks h (hty.mono hm) : P m (upperBound fuel ty) _ _)
    unfold isNotNull
    cases hty with
    | @single pre s _ _ =>
      exact h.get_bind fun t t' _ reads hn => h.ite
        (by rw [← reads.flags s]; rfl) h.bool (under _ hn)
    | @ref pre s args _ hs _ =>
      have hs : sc.In n s := hs
      rw [move_ref] at normal upper ⊢
      refine h.bind (record_walks h hs) fun r m hm hr => h.ite (by simp) h.bool ?_
      refine h.ite (by simp) ?_ (h.ite (by simp) ?_ (h.ite (by simp) ?_ h.bool))
      · refine h.bind (derives_walks h (hs.mono hm) (by decide)) fun _ m1 hm1 _ =>
          h.ite (by simp) h.bool ?_
        exact derives_walks h (hs.mono (Nat.le_trans hm hm1)) (by decide)
      · exact h.bind (normal m hm) fun _ _ _ hty' => h.ite (by simp [← move_ref]) h.bool (ih hty')
      · exact h.bind (upper m hm) fun _ _ _ hhi => h.ite (by simp [← move_ref]) h.bool (ih hhi)
    | refined hparents _ _ =>
      rw [move_refined]
      exact h.anyM fun parent mem m hm => ih (Scope.In.mono (a := _) (hparents parent mem) hm)
    | annotated _ hbody | exist _ hbody => exact ih hbody
    | _ => exact h.bool

/-! ## Path ends -/

theorem followPath_walks : P n (followPath fuel ty) (followPath fuel (ρ.move ty)) sc.In := by
  unfold followPath
  generalize Limits.aliasSteps = k
  induction k generalizing n ty with
  | zero => exact h.ret rfl hty
  | succ k ih =>
    refine h.bind (underlying_walks h hty) fun below m hm hbelow =>
      h.bind (dealias_walks h hbelow) fun next m1 hm1 hnext => ?_
    exact h.ite (by simp) (h.ret rfl (hty.mono (Nat.le_trans hm hm1))) (ih hnext)

end Conformance

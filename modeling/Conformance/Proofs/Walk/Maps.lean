import Conformance.Proofs.Walk.Basic

/-! # Maps over types, run twice

A map compares types and looks at identifiers for equality only. It copies a binder instead of
changing it, so the only records that it writes are those of symbols that it entered itself. -/

namespace Conformance

open Relabeling

variable {sc : Scope} {ρ : Relabeling} {b n : Nat} {Fit : List SymbolId → List SymbolId → Prop}
  {P : PairContract SymM}

variable (sc ρ P) in
/-- Types in scope at `n` and later are mapped to types in scope. -/
def Mapping (n : Nat) (f f' : TypeMap) : Prop := ∀ m ty, n ≤ m →
    sc.In m ty → P m (f ty) (f' (ρ.move ty)) sc.In

theorem Mapping.weaken {m : Nat} {f f' : TypeMap} (hf : Mapping sc ρ P n f f')
    (hnm : n ≤ m) : Mapping sc ρ P m f f' :=
  fun k ty hk => hf k ty (Nat.le_trans hnm hk)

variable (sc ρ Fit P) in
/-- Substitutions of symbols and types in scope. -/
structure Rebinding.Walks (rb : Rebinding) : Prop where
  rename {n : Nat} {src dst : List SymbolId} : Fit src dst → sc.In n dst →
    Mapping sc ρ P n (rb.rename src dst) (rb.rename (ρ.move src) (ρ.move dst))
  replaceThis {n : Nat} (cls : SymbolId) {target : Ty} : sc.In n target →
    Mapping sc ρ P n (rb.replaceThis cls target) (rb.replaceThis (ρ.move cls) (ρ.move target))

variable (h : TableWalk sc ρ b Fit P)
include h

theorem mapM_walks {α β : Type} [Movable α] [Scoped α]
    [Movable β] [Scoped β] {f f' : α → SymM β} {xs : List α}
    (hxs : sc.In n xs) (hf : ∀ a m, n ≤ m → sc.In m a → P m (f a) (f' (ρ.move a)) sc.In) :
    P n (xs.mapM f) ((ρ.move xs).mapM f') fun m ys => ys.length = xs.length ∧ sc.In m ys :=
  h.mapM sc.stable fun a mem m hm => hf a m hm ((hxs a mem).mono hm)

section Maps

variable {rb : Rebinding} (hrb : rb.Walks sc ρ Fit P) {f f' : TypeMap} (hf : Mapping sc ρ P n f f')
include hrb

theorem copyRefined_walks {parents : List Ty} {decls : List SymbolId}
    {infos : List Ty} {cls : SymbolId} (hparents : sc.In n parents) (hdecls : sc.In n decls)
    (hinfos : sc.In n infos) (hcls : sc.In n cls) : P n (rb.copyRefined parents decls infos cls)
      (rb.copyRefined (ρ.move parents) (ρ.move decls) (ρ.move infos) (ρ.move cls)) sc.In := by
  refine h.get_bind fun t t' ht hr hn => ?_
  rw [hr.owner, zip_move]
  refine h.bind (h.enter (ht.owner (hcls.mono hn)) _ _ _) fun cls' m1 hm1 hcls' => ?_
  have this' : sc.In m1 (Ty.this cls') := .this hcls'.2
  refine h.bind (h.mapM (sc.stable_fresh b) ?_) fun decls' m2 hm2 hdecls' => ?_
  · rintro ⟨d, info⟩ mem m hm
    have hd := hdecls d (List.of_mem_zip mem).1
    have hinfo := hinfos info (List.of_mem_zip mem).2
    simp only [move_pair, ← SymM.cloneInto_bind]
    refine h.bind (h.cloneInto (hd.mono (by omega)) (hcls'.2.mono (by omega)))
      fun copy m3 hm3 hcopy => ?_
    refine h.bind (hrb.replaceThis cls this' m3 info (by omega) (hinfo.mono (by omega)))
      fun info' m4 hm4 hinfo' => ?_
    have fresh := fun {k} (hk : m3 ≤ k) => sc.stable_fresh b _ k _ hk hcopy
    refine h.bind (h.setInfo (fresh (by omega)) hinfo') fun _ m5 hm5 _ => ?_
    exact h.pure rfl fun m6 hm6 => fresh (by omega)
  · exact refinedType_walks h ⟨hcls'.1, hcls'.2.mono hm2⟩ (hparents.mono (by omega)) fun d mem =>
      (hdecls'.2 d mem).2

include hf

theorem mapBinder_walks {binders : List SymbolId} {body : Ty}
    (hbinders : sc.In n binders) (hbody : sc.In n body) :
    P n (rb.mapBinder f binders body) (rb.mapBinder f' (ρ.move binders) (ρ.move body)) sc.In := by
  refine h.get_bind fun {m} t t' ht hr hn => ?_
  rw [hr.infosOf]
  have hinfos : sc.In m (binders.map t.info) := (hbinders.mono hn).map fun _ hs => ht.info hs
  refine h.bind (mapM_walks h hinfos fun ty m hm =>
    hf m ty (Nat.le_trans hn hm)) fun infos' m1 hm1 hinfos' => ?_
  refine h.bind (hf m1 body (by omega) (hbody.mono (by omega))) fun body' m2 hm2 hbody' => ?_
  refine h.ite move_inj (h.ret rfl ⟨hbinders.mono (by omega), hbody'⟩) ?_
  refine h.bind (h.mapM (sc.stable_fresh b) fun s mem m hm =>
    h.cloneSymbol ((hbinders s mem).mono (by omega))) fun copies m3 hm3 hcopies => ?_
  have fits := h.fit (Nat.le_of_eq hcopies.1.symm)
  have there : sc.In m3 copies := fun c mem => (hcopies.2 c mem).2
  rw [zip_move]
  refine h.bind (h.forM ?_) fun _ m4 hm4 _ => ?_
  · rintro ⟨copy, info⟩ mem m hm
    have hinfo := hinfos'.2 info (List.of_mem_zip mem).2
    refine h.bind (hrb.rename fits (there.mono hm) m info (Nat.le_refl _) (hinfo.mono (by omega)))
      fun info' k hk hinfo' => ?_
    exact h.setInfo (sc.stable_fresh b _ _ _ (by omega) (hcopies.2 copy (List.of_mem_zip mem).1))
      hinfo'
  · refine h.bind (hrb.rename fits (there.mono hm4) m4 body' (Nat.le_refl _)
      (hbody'.mono (by omega))) fun body'' m5 hm5 h' => ?_
    exact h.ret rfl ⟨there.mono (by omega), h'⟩

theorem mapRefined_walks {parents : List Ty} {decls : List SymbolId}
    {cls : SymbolId} {ty : Ty} (hty : sc.In n ty) (hparents : sc.In n parents)
    (hdecls : sc.In n decls) (hcls : sc.In n cls) : P n (rb.mapRefined f ty parents decls cls)
      (rb.mapRefined f' (ρ.move ty) (ρ.move parents) (ρ.move decls) (ρ.move cls)) sc.In := by
  refine h.bind (mapM_walks h hparents fun ty m hm => hf m ty hm) fun parents' m1 hm1 hparents' =>
    ?_
  refine h.bind (mapM_walks h (hdecls.mono hm1) fun d m hm hd => ?_) fun infos' m2 hm2 hinfos' => ?_
  · exact h.bind (info_walks h hd) fun info m' hm' hinfo => hf m' info (by omega) hinfo
  refine h.get_bind fun {k} t t' ht hr hn => ?_
  have hparents := hparents'.2.mono (m := k) (by omega)
  have hdecls := hdecls.mono (m := k) (by omega)
  have hcls := hcls.mono (m := k) (by omega)
  rw [hr.infosOf, move_bne]
  refine h.ite (by simp) (copyRefined_walks h hrb hparents hdecls (hinfos'.2.mono hn) hcls)
    (h.ret (by simp) ?_)
  split
  · exact hty.mono (by omega)
  · exact .refined hparents hdecls hcls

theorem mapOver_walks : Mapping sc ρ P n (rb.mapOver f) (rb.mapOver f') := by
  intro m ty hm hty
  have hf := hf.weaken hm
  -- a rebuilt type is in scope, and so is the one that it was built from
  have either : ∀ {c : Prop} [Decidable c] {k : Nat} {ty' : Ty}, m ≤ k →
    sc.In k ty' → sc.In k (if c then ty else ty') := by
    intro c _ k ty' hk hty'
    split
    · exact hty.mono hk
    · exact hty'
  cases hty with
  | single hpre hs =>
    rw [move_single]
    exact h.bind (hf m _ (Nat.le_refl _) hpre) fun pre' k hk hpre' =>
      h.ret (by simp) (either hk (.single hpre' (sc.mono hk hs)))
  | ref hpre hs hargs =>
    rw [move_ref]
    refine h.bind (hf m _ (Nat.le_refl _) hpre) fun pre' k hk hpre' => ?_
    refine h.bind (mapM_walks h (Scope.In.mono (a := _) hargs hk) fun ty k' hk' =>
      hf k' ty (by omega)) fun args' k' hk' hargs' => ?_
    exact h.ret (by simp)
      (either (by omega) (.ref (hpre'.mono hk') (sc.mono (by omega) hs) hargs'.2))
  | refined hparents hdecls hcls =>
    have mapped := mapRefined_walks h hrb hf (.refined hparents hdecls hcls) hparents hdecls hcls
    rw [move_refined] at mapped ⊢
    exact mapped
  | exist hq hbody =>
    rw [move_exist]
    refine h.bind (mapBinder_walks h hrb hf hq hbody) fun p k hk hp => ?_
    obtain ⟨qs', body'⟩ := p
    rw [move_pair]
    exact h.ret (by simp) (either hk (Scope.In.existential hp.1 hp.2))
  | annotated ha hbody =>
    rw [move_annotated]
    refine h.bind (hf m _ (Nat.le_refl _) hbody) fun body' k hk hbody' => ?_
    exact h.ret (by simp) (either hk (Scope.In.annotate (Scope.In.mono (a := _) ha hk) hbody'))
  | boundedWildcard hb =>
    rw [move_boundedWildcard]
    exact h.bind (hf m _ (Nat.le_refl _) hb) fun b' k hk hb' =>
      h.ret (by simp) (either hk (.boundedWildcard hb'))
  | bounds hlo hhi =>
    rw [move_bounds]
    refine h.bind (hf m _ (Nat.le_refl _) hlo) fun lo' k hk hlo' => ?_
    refine h.bind (hf k _ hk (Scope.In.mono (a := _) hhi hk)) fun hi' k' hk' hhi' => ?_
    exact h.ret (by simp) (either (by omega) (.bounds (hlo'.mono hk') hhi'))
  | method hp hresult =>
    rw [move_method]
    refine h.bind (mapBinder_walks h hrb hf hp hresult) fun p k hk hp => ?_
    obtain ⟨ps', r'⟩ := p
    rw [move_pair]
    exact h.ret (by simp) (either hk (.method hp.1 hp.2))
  | nullary hr =>
    rw [move_nullary]
    exact h.bind (hf m _ (Nat.le_refl _) hr) fun r' k hk hr' =>
      h.ret (by simp) (either hk (.nullary hr'))
  | poly hp hresult =>
    rw [move_poly]
    refine h.bind (mapBinder_walks h hrb hf hp hresult) fun p k hk hp => ?_
    obtain ⟨ps', r'⟩ := p
    rw [move_pair]
    exact h.ret (by simp) (either hk (Scope.In.lambda hp.1 hp.2))
  | notNull hb =>
    rw [move_notNull]
    exact h.bind (hf m _ (Nat.le_refl _) hb) fun b' k hk hb' =>
      h.ret (by simp) (either hk (.notNull hb'))
  | noType | noPrefix | error | wildcard | dangling | this | const | var =>
    refine h.ret rfl (show Ty.Over _ _ _ from ?_)
    constructor <;> assumption

end Maps

/-! ## Substitutions -/

theorem rebinding_walks (fuel : Nat) : (Rebinding.at fuel).Walks sc ρ Fit P := by
  induction fuel with
  | zero => exact ⟨fun _ _ _ _ _ _ => h.exhausted, fun _ _ _ _ _ _ _ => h.exhausted⟩
  | succ fuel ih =>
    refine ⟨fun {n src dst} fits hdst m ty hm hty =>
      ?_, fun {n} cls {target} htarget m ty hm hty => ?_⟩
    · have next := ih.rename fits hdst
      have mapped := mapOver_walks h ih next m ty hm hty
      have renamed := fun s => h.renamedSymbol? s fits (hdst.mono hm)
      show P m (substSym (fuel + 1) src dst ty)
        (substSym (fuel + 1) (ρ.move src) (ρ.move dst) (ρ.move ty)) _
      unfold substSym
      refine h.ite (by simp) (h.ret rfl hty) ?_
      cases ty with
      | this s =>
        refine h.bind (renamed s) fun o k hk ho => ?_
        cases o with
        | none => exact h.ret rfl (hty.mono hk)
        | some s' => exact h.ret rfl (.this (ho s' rfl))
      | single pre s =>
        rw [move_single] at mapped ⊢
        refine h.bind (renamed s) fun o k hk ho => ?_
        cases o with
        | none =>
          have mapped := mapOver_walks h ih next k _ (Nat.le_trans hm hk) (hty.mono hk)
          rwa [move_single] at mapped
        | some s' =>
          refine h.bind (next k _ (by omega) (hty.single_pre.mono hk)) fun pre' k' hk' hpre' => ?_
          exact h.ret rfl (.single hpre' (sc.mono hk' (ho s' rfl)))
      | ref pre s args =>
        rw [move_ref] at mapped ⊢
        refine h.bind (renamed s) fun o k hk ho => ?_
        cases o with
        | none =>
          have mapped := mapOver_walks h ih next k _ (Nat.le_trans hm hk) (hty.mono hk)
          rwa [move_ref] at mapped
        | some s' =>
          refine h.bind (next k _ (by omega) (hty.ref_pre.mono hk)) fun pre' k' hk' hpre' => ?_
          refine h.bind (mapM_walks h (hty.ref_args.mono (Nat.le_trans hk hk')) fun ty k2 hk2 =>
            next k2 ty (by omega)) fun args' k3 hk3 hargs' => ?_
          exact h.ret (move_ref ..).symm (.ref (hpre'.mono hk3)
            (sc.mono (by omega) (ho s' rfl)) hargs'.2)
      | _ => exact mapped
    · have mapped := mapOver_walks h ih (ih.replaceThis cls htarget) m ty hm hty
      show P m (substThis (fuel + 1) cls target ty)
        (substThis (fuel + 1) (ρ.move cls) (ρ.move target) (ρ.move ty)) _
      unfold substThis
      refine h.ite (by simp [← move_this]) (h.ret rfl hty)
        (h.ite (by simp [← move_this]) (h.ret rfl (htarget.mono hm)) mapped)

theorem substSym_walks (fuel : Nat) {src dst : List SymbolId}
    (fits : Fit src dst) (hdst : sc.In n dst) : Mapping sc ρ P n (substSym fuel src dst)
    (substSym fuel (ρ.move src) (ρ.move dst)) := (rebinding_walks h fuel).rename fits hdst

theorem substThis_walks (fuel : Nat) (cls : SymbolId) {target : Ty} (htarget : sc.In n target) :
    Mapping sc ρ P n (substThis fuel cls target) (substThis fuel (ρ.move cls) (ρ.move target)) :=
  (rebinding_walks h fuel).replaceThis cls htarget

theorem applyArgsWith_walks {subst : List SymbolId → List Ty → TypeMap} {tycon : Ty} {args : List
    Ty} (hsubst : ∀ src, Mapping sc ρ P n (subst src args) (subst (ρ.move src) (ρ.move args)))
    (htycon : sc.In n tycon) (hargs : sc.In n args) : P n (applyArgsWith subst tycon args)
    (applyArgsWith subst (ρ.move tycon) (ρ.move args)) sc.In := by
  cases tycon with
  | ref pre s as =>
    rw [move_ref]
    cases as with
    | nil => exact h.ret (by simp) (.ref htycon.ref_pre htycon.ref_sym hargs)
    | cons a as => exact h.ret (by simp) htycon
  | poly ps result =>
    cases htycon with
    | poly _ hresult =>
      exact h.ite (by simp) (hsubst ps n result (Nat.le_refl _) hresult) (h.ret rfl .error)
  | _ => exact h.ret (by simp) htycon

theorem substTypes_walks (fuel : Nat) (src : List SymbolId) {dst : List Ty} (hdst : sc.In n dst) :
    Mapping sc ρ P n (substTypes fuel src dst) (substTypes fuel (ρ.move src) (ρ.move dst)) := by
  induction fuel generalizing n src dst with
  | zero => exact fun _ _ _ _ => h.exhausted
  | succ fuel ih =>
    intro m ty hm hty
    have mapped := mapOver_walks h (rebinding_walks h fuel) (ih src hdst) m ty hm hty
    unfold substTypes
    refine h.ite (by simp) (h.ret rfl hty) ?_
    cases ty with
    | ref pre s args =>
      rw [move_ref] at mapped ⊢
      cases pre with
      | noPrefix =>
        rw [move_noPrefix] at mapped ⊢
        dsimp only
        rw [zip_move, lookup_move]
        cases found : (src.zip dst).lookup s with
        | none => exact mapped
        | some replacement =>
          have hreplacement : sc.In m replacement :=
            (hdst _ (List.of_mem_zip (mem_of_lookup found)).2).mono hm
          refine h.ite (by simp) (h.ret rfl hreplacement) ?_
          refine h.bind (mapM_walks h hty.ref_args fun ty k hk =>
            ih src hdst k ty (by omega)) fun args' k hk hargs' => ?_
          exact applyArgsWith_walks h (fun src => ih src hargs'.2) (hreplacement.mono hk) hargs'.2
      | _ => exact mapped
    | _ => exact mapped

theorem replaceType_walks (fuel : Nat) (source : Ty)
    {target : Ty} (htarget : sc.In n target) : Mapping sc ρ P n (replaceType fuel source target)
    (replaceType fuel (ρ.move source) (ρ.move target)) := by
  induction fuel with
  | zero => exact fun _ _ _ _ => h.exhausted
  | succ fuel ih =>
    intro m ty hm hty
    exact h.ite move_inj (h.ret rfl (htarget.mono hm))
      (mapOver_walks h (rebinding_walks h fuel) ih m ty hm hty)

theorem instantiateWith_walks {inst? inst?' : VarId → Option Ty}
    (hinst : ∀ v, sc.In n v → sc.In n (inst? v)) (same : ∀ v, inst?' (ρ.move v) = ρ.move (inst? v))
    (fuel : Nat) (expanding : List VarId) : Mapping sc ρ P n (instantiateWith inst? fuel expanding)
    (instantiateWith inst?' fuel (ρ.move expanding)) := by
  induction fuel generalizing expanding with
  | zero => exact fun _ _ _ _ => h.exhausted
  | succ fuel ih =>
    intro m ty hm hty
    have mapped := mapOver_walks h (rebinding_walks h fuel) (ih expanding) m ty hm hty
    unfold instantiateWith
    cases ty with
    | var v =>
      have hv : sc.In n v := by
        cases hty with
        | var hv => exact hv
      rw [move_var]
      refine h.ite (by simp) (h.ret rfl hty) ?_
      rw [same]
      cases found : inst? v with
      | none => exact h.ret rfl hty
      | some inst => exact ih (v :: expanding) m inst hm ((hinst v hv inst found).mono hm)
    | _ => exact mapped

theorem cloneSymbols_walks (fuel : Nat) {syms : List SymbolId} (hsyms : sc.In n syms) :
    P n (cloneSymbols fuel syms) (cloneSymbols fuel (ρ.move syms))
      fun m copies => copies.length = syms.length ∧ sc.In m copies := by
  refine h.bind (h.mapM (sc.stable_fresh b) fun s mem m hm => h.cloneSymbol ((hsyms s mem).mono hm))
    fun copies m hm hcopies => ?_
  have fits := h.fit (Nat.le_of_eq hcopies.1.symm)
  have there : sc.In m copies := fun c mem => (hcopies.2 c mem).2
  have fresh := fun {c} (mem : c ∈ copies) {k} (hk : m ≤ k) =>
    sc.stable_fresh b _ k _ hk (hcopies.2 c mem)
  refine h.bind (h.forM fun c mem k hk => ?_) fun _ k hk _ => ?_
  · refine h.bind (info_walks h ((there c mem).mono hk)) fun info k' hk' hinfo => ?_
    refine h.bind (substSym_walks h fuel fits there k' info (by omega) hinfo)
      fun info' k'' hk'' hinfo' => ?_
    exact h.setInfo (fresh mem (by omega)) hinfo'
  · exact h.pure rfl fun k' hk' => ⟨hcopies.1, there.mono (by omega)⟩

end Conformance

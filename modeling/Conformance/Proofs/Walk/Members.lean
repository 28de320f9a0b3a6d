import Conformance.Proofs.Walk.Owners

/-! # Members and opened existentials, run twice -/

namespace Conformance

open Relabeling

variable {sc : Scope} {ρ : Relabeling} {b n : Nat} {Fit : List SymbolId → List SymbolId → Prop}
  {P : PairContract SymM} (h : TableWalk sc ρ b Fit P)
  {fuel : Nat} {ty : Ty}
include h

/-! ## Existentials -/

theorem copyInfos_walks {sources copies : List SymbolId}
    (fits : Fit sources copies) (hsources : sc.In n sources)
    (hcopies : ∀ c ∈ copies, sc.Fresh b n c) : P n (copyInfos (substSym fuel) sources copies)
    (copyInfos (substSym fuel) (ρ.move sources) (ρ.move copies)) fun _ _ => True := by
  have there : sc.In n copies := fun c mem => (hcopies c mem).2
  rw [copyInfos, copyInfos, zip_move]
  refine h.forM ?_
  rintro ⟨source, copy⟩ mem m hm
  refine h.bind (info_walks h ((hsources source (List.of_mem_zip mem).1).mono hm))
    fun info m1 hm1 hinfo => ?_
  refine h.bind (substSym_walks h fuel fits there m1 info (Nat.le_trans hm hm1) hinfo)
    fun info' k hk hinfo' => ?_
  exact h.setInfo (sc.stable_fresh b _ _ _ (by omega) (hcopies copy (List.of_mem_zip mem).2)) hinfo'

theorem rawToExistential_walks (hty : sc.In n ty) :
    P n (rawToExistential fuel ty) (rawToExistential fuel (ρ.move ty)) sc.In := by
  cases ty with
  | ref pre s args =>
    rw [move_ref]
    refine h.get_bind fun t t' ht reads hn => ?_
    have hs := hty.ref_sym.mono hn
    rw [reads.tparams]
    refine h.ite (by simp) (h.ret (move_ref ..).symm (hty.mono hn)) ?_
    refine h.bind (h.mapM (sc.stable_fresh b) fun p _ m hm => h.get_bind fun t t' _ reads hn' => ?_)
      fun quantified m hm hquantified => ?_
    · rw [reads.name]
      exact h.enter (hs.mono (Nat.le_trans hm hn')) _ _ _
    · have fits := h.fit (Nat.le_of_eq hquantified.1.symm)
      refine h.bind (copyInfos_walks h fits ((ht.tparams hs).mono hm) hquantified.2)
        fun _ m1 hm1 _ => ?_
      refine h.get_bind fun {m2} t' t'' ht' reads hn' =>
        h.ret (by rw [reads.paramRefs, ← move_ref, move_existential]) ?_
      have there : sc.In m2 quantified := fun q mem =>
        (hquantified.2 q mem).2.mono (Nat.le_trans hm1 hn')
      exact there.existential (.ref (hty.ref_pre.mono (by omega))
        (hty.ref_sym.mono (by omega)) (ht'.paramRefs there))
  | _ => exact h.ret (by simp) hty

theorem skolemize_walks (hty : sc.In n ty) (level : Nat) :
    P n (skolemize fuel ty level) (skolemize fuel (ρ.move ty) level) sc.In := by
  cases ty with
  | exist quantified body =>
    have ⟨hquantified, hbody⟩ : sc.In n quantified ∧ sc.In n body := by
      cases hty with
      | exist hq hbody => exact ⟨hq, hbody⟩
    refine h.bind (commonOwner_walks h (Scope.In.cons hty .nil)) fun owner m hm howner => ?_
    refine h.bind (h.mapM (sc.stable_fresh b) fun q mem m' hm' => ?_) fun skolems m1 hm1 hskolems =>
      ?_
    · exact h.newTypeLike ((hquantified q mem).mono (Nat.le_trans hm hm')) (howner.mono hm') _ _
    have fits := h.fit (Nat.le_of_eq hskolems.1.symm)
    have there : sc.In m1 skolems := fun s mem => (hskolems.2 s mem).2
    refine h.bind (copyInfos_walks h fits (hquantified.mono (by omega)) hskolems.2)
      fun _ m2 hm2 _ => ?_
    exact substSym_walks h fuel fits there m2 body hm2 (hbody.mono (by omega))
  | _ => exact h.ret (by simp) hty

theorem expand_walks (hty : sc.In n ty) : P n (expand fuel ty) (expand fuel (ρ.move ty)) sc.In :=
  h.get_bind fun _ _ _ reads hn => h.ite (by rw [reads.isRaw])
    (rawToExistential_walks h (hty.mono hn)) (normalize_walks h (hty.mono hn))

/-! ## Members -/

omit h in
/-- Appending what passes a test. -/
theorem append_in {α : Type} [Scoped α] (skip : List α → α → Bool)
    {out new : List α} (hout : sc.In n out) (hnew : sc.In n new) :
    sc.In n (new.foldl (fun out a => if skip out a then out else out ++ [a]) out) := by
  induction new generalizing out with
  | nil => exact hout
  | cons a rest ih =>
    rw [List.foldl_cons]
    refine ih ?_ hnew.tail
    split
    · exact hout
    · exact hout.append (.cons hnew.head .nil)

omit h in
theorem move_append_new {α : Type} [Movable α] {skip skip' : List α → α → Bool}
    (same : ∀ out a, skip' (ρ.move out) (ρ.move a) = skip out a) (out new : List α) :
    (ρ.move new).foldl (fun out a => if skip' out a then out else out ++ [a]) (ρ.move out) =
      ρ.move (new.foldl (fun out a => if skip out a then out else out ++ [a]) out) := by
  induction new generalizing out with
  | nil => rfl
  | cons a rest ih =>
    rw [move_cons, List.foldl_cons, List.foldl_cons, same, ← ih, move_ite, move_append]
    rfl

theorem baseClassesOf_walks (hty : sc.In n ty) : P n (baseClassesOf fuel ty)
    (baseClassesOf fuel (ρ.move ty)) sc.In := by
  induction fuel generalizing n ty with
  | zero => exact h.exhausted
  | succ fuel ih =>
    -- every type but a refined one goes by its symbol
    have bySymbol : P n (do
        let s ← typeSymbol fuel ty
        let r ← SymM.record s
        if r.isClass then SymM.baseClasses s
        else if r.isAbstractType then
          let hi ← upperBound fuel (← widen fuel ty)
          if hi = ty then return []
          baseClassesOf fuel hi
        else return []) (do
        let s ← typeSymbol fuel (ρ.move ty)
        let r ← SymM.record s
        if r.isClass then SymM.baseClasses s
        else if r.isAbstractType then
          let hi ← upperBound fuel (← widen fuel (ρ.move ty))
          if hi = ρ.move ty then return []
          baseClassesOf fuel hi
        else return []) sc.In := by
      refine h.bind (typeSymbol_walks h hty) fun s m hm hs =>
        h.bind (record_walks h hs) fun r m1 hm1 hr => ?_
      refine h.ite (by simp) (h.baseClasses (hs.mono hm1)) (h.ite (by simp) ?_ (h.ret rfl .nil))
      refine h.bind (widen_walks h (hty.mono (Nat.le_trans hm hm1))) fun wide m2 hm2 hwide => ?_
      exact h.bind (upperBound_walks h hwide) fun hi m3 hm3 hhi =>
        h.ite move_inj (h.ret rfl .nil) (ih hhi)
    cases ty with
    | refined parents decls cls =>
      cases hty with
      | refined hparents _ hcls =>
        rw [move_refined]
        refine h.foldlM sc.stable (Scope.In.cons (x := cls) hcls .nil)
          fun out parent mem m hm hout => ?_
        refine h.bind (ih (Scope.In.mono (a := _) (hparents parent mem) hm))
          fun classes _ hm' hclasses => h.ret ?_ ?_
        · exact move_append_new (fun out s => contains_move out s) out classes
        · exact append_in (·.contains ·) (hout.mono hm') hclasses
    | _ => exact bySymbol

theorem memberOwners_walks (hty : sc.In n ty) : P n (memberOwners fuel ty)
    (memberOwners fuel (ρ.move ty)) sc.In := by
  have widened := fun {ty : Ty} (hty : sc.In n ty) =>
    h.bind (widen_walks h hty : P n (widen fuel ty) _ _) fun _ k _ hwide =>
    (baseClassesOf_walks h hwide : P k (baseClassesOf fuel _) _ _)
  induction ty using memberOwners.induct with
  | case1 parents decls cls =>
    have classes : P n (baseClassesOf fuel (.refined parents decls cls)) _ _ :=
      baseClassesOf_walks h hty
    rw [move_refined] at classes ⊢
    exact classes
  | case2 qs body ih =>
    cases hty with
    | exist _ hbody => exact ih hbody
  | case3 as body ih =>
    cases hty with
    | annotated _ hbody => exact ih hbody
  | case4 body ih =>
    cases hty with
    | notNull hbody => exact ih hbody
  | case5 ty h1 h2 h3 h4 =>
    have widened := widened hty
    cases ty with
    | refined => exact absurd rfl (h1 _ _ _)
    | exist => exact absurd rfl (h2 _ _)
    | annotated => exact absurd rfl (h3 _ _)
    | notNull => exact absurd rfl (h4 _)
    | _ => exact widened

theorem findMember_walks (hty : sc.In n ty) (name : String) :
    P n (findMember fuel ty name) (findMember fuel (ρ.move ty) name) sc.In := by
  refine h.bind (memberOwners_walks h hty) fun owners m hm howners =>
    h.get_bind fun {k} t t' ht reads hn => h.ret ?_ ?_
  · have all : (ρ.move owners).flatMap (t'.declsNamed · name) =
      ρ.move (owners.flatMap (t.declsNamed · name)) := by
      induction owners with
      | nil => rfl
      | cons c cs ih =>
        rw [move_cons, List.flatMap_cons, List.flatMap_cons,
          reads.declsNamed, ih howners.tail, move_append]
    rw [all]
    refine move_append_new (fun (found : List SymbolId) m => (?_ : _ = found.any (t.hides · m)))
      [] _
    rw [move_list, List.any_map]
    exact congrArg (found.any ·) (funext fun c => reads.hides c m)
  · have all : sc.In k (owners.flatMap (t.declsNamed · name)) := by
      intro d mem
      obtain ⟨o, ho, hd⟩ := List.mem_flatMap.1 mem
      exact ht.declsNamed ((howners o ho).mono hn) name d hd
    exact append_in (fun found m => found.any (t.hides · m)) .nil all

theorem memberInfo_walks {member : SymbolId} (hty : sc.In n ty) (hmember : sc.In n member) :
    P n (memberInfo fuel ty member) (memberInfo fuel (ρ.move ty) (ρ.move member)) sc.In :=
  h.bind (record_walks h hmember) fun _ _ hm hr =>
    asSeenFrom_walks h fuel hr.info (hty.mono hm) hr.owner

theorem memberType_walks {member : SymbolId} (hty : sc.In n ty) (hmember : sc.In n member) :
    P n (memberType fuel ty member) (memberType fuel (ρ.move ty) (ρ.move member)) sc.In := by
  refine h.bind (record_walks h hmember) fun r m hm hr =>
    h.ite (by simp) ?_ (memberInfo_walks h (hty.mono hm) (hmember.mono hm))
  refine h.get_bind fun t t' ht reads hn => h.ret ?_ ?_
  · rw [move_ref, ← reads.paramRefs]
    rfl
  · exact .ref (hty.mono (by omega)) (hmember.mono (by omega)) (ht.paramRefs (hr.tparams.mono hn))

end Conformance

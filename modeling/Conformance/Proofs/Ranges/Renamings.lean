import Conformance.Proofs.Lockstep

/-! # Queries fail only for want of fuel

The rules rename binders after they have compared the lengths of the two lists, or to copies of
their own. With an annotation checker that does not fail either, a step fails only where a query it
asks does. -/

namespace Conformance

namespace Unfailing

variable {α β : Type}

theorem onTable {x : SymM α} (hx : Unfailing x) : Unfailing (CheckM.onTable x) := by
  intro s e s' h
  unfold CheckM.onTable at h
  cases run : x s.table with
  | ok a t =>
    rw [EStateM.run, run] at h
    cases h
  | error e1 t =>
    rw [EStateM.run, run] at h
    cases h
    exact hx _ _ _ run

theorem ending {x : CheckM α} (hx : Unfailing x) (cleanup : CheckState → CheckState) :
    Unfailing (CheckM.ending x cleanup) := by
  intro s e s' h
  unfold CheckM.ending at h
  cases run : x s with
  | ok a s1 =>
    rw [run] at h
    cases h
  | error e1 s1 =>
    rw [run] at h
    cases h
    exact hx _ _ _ run

theorem probe {x : CheckM Bool} (hx : Unfailing x) : Unfailing (CheckM.probe x) := by
  intro s e s' h
  unfold CheckM.probe at h
  simp only at h
  split at h
  · cases h
  · cases h
  · next run =>
    cases h
    exact hx _ _ _ run

theorem speculate {x : CheckM α} (hx : Unfailing x) : Unfailing (CheckM.speculate x) :=
  fun _ _ _ h => hx.ending _ _ _ _ h

theorem query (enter : Guard.Entering) (op : Relation) (depth : Option Nat) {x : CheckM Bool}
    (hx : Unfailing x) : Unfailing (CheckM.reported op depth (CheckM.guarded enter x)) := by
  intro s e s' h
  rw [CheckM.query_run] at h
  cases admission : (enter s.guard).1 with
  | entered entry =>
    rw [admission] at h
    cases run : CheckM.probe x (CheckM.admitted enter op depth s) with
    | ok b s1 =>
      rw [run] at h
      cases h
    | error e1 s1 =>
      rw [run] at h
      cases h
      exact hx.probe _ _ _ run
  | cycle | tooDeep =>
    rw [admission] at h
    cases h

theorem atDeeperLevel {x : Nat → CheckM α} (hx : ∀ level, Unfailing (x level)) :
    Unfailing (CheckM.atDeeperLevel x) := by
  refine .bind (.of_answers fun s => ⟨_, _, rfl⟩) fun (entered, level) => ?_
  exact .ite ((hx level).ending _) (hx level)

end Unfailing

open CheckM

theorem Unfailing.updateVar (v : VarId) (f : VarInfo Ty → VarInfo Ty) : Unfailing (updateVar v f) :=
  .of_answers fun _ => ⟨_, _, rfl⟩

theorem Unfailing.stepwise : Stepwise fun x _ => Unfailing x where
  toSequenced := sequenced
  exhausted := .exhausted
  onTable := .onTable
  readVars := .of_answers fun _ => ⟨_, _, rfl⟩
  freshVar _ _ := .of_answers fun _ => ⟨_, _, rfl⟩
  atDeeperLevel := .atDeeperLevel
  speculate := .speculate

/-- Queries that fail only for want of fuel. -/
abbrev Queries.NeedFuelOnly (q : Queries) : Prop := Queries.InStep (fun x _ => Unfailing x) q q

section Rules

variable {cfg : Config} {q : Queries} (ha : ∀ l r, Unfailing (cfg.annotations l r))
  (hq : q.NeedFuelOnly)
include hq

include ha

theorem sameStep_unfailing (ty1 ty2 : Ty) : Unfailing (sameStep cfg q ty1 ty2) :=
  Unfailing.stepwise.sameStep hq (fun l r => (ha l r).onTable)
    (Unfailing.stepwise.equality_of_writes hq .updateVar) ty1 ty2

theorem subStep_unfailing (ty1 ty2 : Ty) (depth : Depth) :
    Unfailing (subStep cfg q ty1 ty2 depth) :=
  have h := Unfailing.stepwise
  h.subStep hq (fun l r => (ha l r).onTable)
    (h.conformsToExistential hq (h.solveOne_of_writes hq .updateVar))
    (fun _ v ty => h.bound_of_write hq (fun _ => .updateVar v _) ty) ty1 ty2 depth

end Rules

/-- A step fails only where a query it asks does, so no depth of nesting brings another failure. -/
theorem Config.queriesUpTo_needFuelOnly {cfg : Config}
    (ha : ∀ l r, Unfailing (cfg.annotations l r)) (n : Nat) : (cfg.queriesUpTo n).NeedFuelOnly := by
  induction n with
  | zero => exact ⟨fun _ _ _ => .query _ _ _ (.pure _), fun _ _ => .query _ _ _ (.pure _)⟩
  | succ n ih =>
    exact ⟨fun l r depth => .query _ _ _ (subStep_unfailing ha ih l r depth),
      fun l r => .query _ _ _ (sameStep_unfailing ha ih l r)⟩

/-! ## Every renaming has a replacement for each symbol

A renaming looks a replacement up only where it meets the symbol, so lists that do not fit may go
unnoticed. Here the places that rename are given another renaming. Each gives the same with any one
that agrees with the true one where the replacements are as many as the symbols: it asks for no
other. -/

/-- Lists found equivalent have one length. -/
theorem length_of_sameAll {q : Queries} {ls rs : List Ty}
    {s s' : CheckState} (h : q.sameAll ls rs s = .ok true s') : ls.length = rs.length := by
  unfold Queries.sameAll at h
  split at h
  · assumption
  · cases h

namespace Renaming

/-- The renamings agree on lists with a replacement for each symbol. -/
def AgreeWhereFit (rn rn' : Renaming) : Prop := ∀ src dst, src.length ≤ dst.length →
    rn src dst = rn' src dst

section Copies

variable {rn : Renaming} {fuel : Nat} (h : rn.AgreeWhereFit (substSym fuel))
include h

theorem cloneSymbols_eq : rn.cloneSymbols = Conformance.cloneSymbols fuel := by
  refine funext fun syms => bind_eq_of_run fun copies t t' made => ?_
  rw [h _ _ (length_of_mapM made).ge]

theorem copyInfos_eq {sources copies : List SymbolId} (fits : sources.length ≤ copies.length) :
    copyInfos rn sources copies = copyInfos (substSym fuel) sources copies := by
  rw [copyInfos, h _ _ fits]
  rfl

theorem rawToExistential_eq : rn.rawToExistential = Conformance.rawToExistential fuel := by
  funext ty
  cases ty with
  | ref pre s args =>
    refine bind_eq_of_run fun t _ _ _ => ite_congr rfl (fun _ => rfl) fun _ =>
      bind_eq_of_run fun quantified _ _ made => ?_
    rw [copyInfos_eq h (length_of_mapM made).ge]
  | _ => rfl

theorem skolemize_eq : rn.skolemize fuel = Conformance.skolemize fuel := by
  funext ty level
  cases ty with
  | exist quantified body =>
    refine bind_eq_of_run fun owner _ _ _ => bind_eq_of_run fun skolems _ _ made => ?_
    have fits := (length_of_mapM made).ge
    rw [copyInfos_eq h fits, h _ _ fits]
  | _ => rfl

end Copies

section Rules

variable {rn : Renaming} {cfg : Config} {q : Queries} (h : rn.AgreeWhereFit (substSym cfg.fuel))
include h

theorem sameBinders_eq : rn.sameBinders q = Conformance.sameBinders cfg q := by
  funext params1 body1 params2 body2
  unfold sameBinders Conformance.sameBinders
  refine ite_congr rfl (fun _ => rfl) fun matched => ?_
  have fits : params2.length ≤ params1.length := by simp_all
  rw [h _ _ fits]

theorem sameMethods_eq : rn.sameMethods q = Conformance.sameMethods cfg q := by
  funext params1 result1 flags1 params2 result2 flags2
  refine ite_congr rfl (fun _ => rfl) fun _ => bind_eq_of_run fun t _ _ _ =>
    bind_eq_of_run fun b _ _ compared => ?_
  cases b with
  | false => rfl
  | true =>
    have fits : params2.length ≤
      params1.length := by simpa using Nat.le_of_eq (length_of_sameAll compared).symm
    rw [h _ _ fits]

theorem methodConforms_eq : rn.methodConforms cfg q = Conformance.methodConforms cfg q := by
  funext params1 result1 flags1 params2 result2 flags2 depth
  unfold methodConforms Conformance.methodConforms
  refine ite_congr rfl (fun _ => rfl) fun matched => ?_
  have fits : params1.length ≤ params2.length := by simp_all
  rw [h _ _ fits]

theorem lambdaConforms_eq {names tparams1 tparams2 : List SymbolId}
    (fits1 : tparams1.length ≤ names.length) (fits2 : tparams2.length ≤ names.length)
    (result1 : Ty) : rn.lambdaConforms q names tparams1 result1 tparams2 =
      Conformance.lambdaConforms cfg q names tparams1 result1 tparams2 := by
  funext result2 renameLeft depth
  rw [lambdaConforms, h _ _ fits1, h _ _ fits2]
  rfl

theorem constructorsConform_eq : rn.constructorsConform
    cfg q = Conformance.constructorsConform cfg q := by
  funext ty1 ty2 depth
  refine bind_eq_of_run fun _ _ _ _ => ite_congr rfl (fun _ => rfl) fun _ => ?_
  refine bind_eq_of_run fun _ _ _ _ => ite_congr rfl (fun _ => rfl) fun _ => ?_
  refine bind_eq_of_run fun norm1 _ _ _ => bind_eq_of_run fun norm2 _ _ _ => ?_
  generalize norm1.withoutAnnotations = bare1
  generalize norm2.withoutAnnotations = bare2
  cases bare1 with
  | poly tparams1 result1 =>
    cases bare2 with
    | poly tparams2 result2 =>
      refine ite_congr rfl (fun _ => rfl) fun matched => bind_eq_of_run fun t _ _ _ => ?_
      have fits : tparams2.length ≤ tparams1.length := by simp_all
      refine ite_congr rfl (fun _ => rfl) fun _ => ?_
      dsimp only
      refine ite_congr rfl (fun _ => bind_eq_of_run fun names _ _ same => ?_) fun _ => ?_
      · cases same
        rewrite [lambdaConforms_eq h (Nat.le_refl _) fits]
        rfl
      · rw [cloneSymbols_eq h]
        refine bind_eq_of_run fun names _ _ made => ?_
        obtain ⟨t', made, -⟩ := CheckM.exists_of_onTable made
        have names_fit := (length_of_cloneSymbols made).ge
        rewrite [lambdaConforms_eq h names_fit (Nat.le_trans fits names_fit)]
        rfl
    | _ => rfl
  | _ => rfl

theorem conformsToExistential_eq : rn.conformsToExistential
    cfg q = Conformance.conformsToExistential cfg q := by
  funext ty quantified body depth
  rw [conformsToExistential, cloneSymbols_eq h]
  refine bind_eq_of_run fun fresh _ _ made => bind_eq_of_run fun tvars _ _ _ => ?_
  obtain ⟨t', made, -⟩ := CheckM.exists_of_onTable made
  rewrite [h _ _ (length_of_cloneSymbols made).ge]
  rfl

end Rules

end Renaming

/-- Binders are mapped with renamings that fit. -/
theorem Rebinding.mapBinder_eq {rb rb' : Rebinding}
    (h : Renaming.AgreeWhereFit rb.rename rb'.rename) : rb.mapBinder = rb'.mapBinder := by
  funext f binders body
  refine bind_eq_of_run fun t _ _ _ => bind_eq_of_run fun infos' _ _ _ =>
    bind_eq_of_run fun body' _ _ _ => ?_
  refine ite_congr rfl (fun _ => rfl) fun _ => bind_eq_of_run fun copies _ _ made => ?_
  rw [h _ _ (length_of_mapM made).ge]

namespace Renaming

/-- The operations on types give the same with the renaming `rn`. -/
structure ServesTypes (rn : Renaming) (fuel : Nat) : Prop where
  mapBinder (replaceThis : SymbolId → Ty → TypeMap) :
    Rebinding.mapBinder ⟨rn, replaceThis⟩ = Rebinding.mapBinder ⟨substSym fuel, replaceThis⟩
  cloneSymbols : rn.cloneSymbols = Conformance.cloneSymbols fuel
  rawToExistential : rn.rawToExistential = Conformance.rawToExistential fuel
  skolemize : rn.skolemize fuel = Conformance.skolemize fuel

theorem AgreeWhereFit.servesTypes {rn : Renaming} {fuel : Nat}
    (h : rn.AgreeWhereFit (substSym fuel)) : rn.ServesTypes fuel :=
  ⟨fun _ => Rebinding.mapBinder_eq h, cloneSymbols_eq h, rawToExistential_eq h, skolemize_eq h⟩

/-- The rules of a step give the same with the renaming `rn`. -/
structure ServesRules (rn : Renaming) (cfg : Config) (q : Queries) : Prop where
  sameBinders : rn.sameBinders q = Conformance.sameBinders cfg q
  sameMethods : rn.sameMethods q = Conformance.sameMethods cfg q
  methodConforms : rn.methodConforms cfg q = Conformance.methodConforms cfg q
  constructorsConform : rn.constructorsConform cfg q = Conformance.constructorsConform cfg q
  conformsToExistential : rn.conformsToExistential cfg q = Conformance.conformsToExistential cfg q

theorem AgreeWhereFit.servesRules {rn : Renaming} {cfg : Config}
    (h : rn.AgreeWhereFit (substSym cfg.fuel)) (q : Queries) : rn.ServesRules cfg q :=
  ⟨sameBinders_eq h, sameMethods_eq h, methodConforms_eq h,
    constructorsConform_eq h, conformsToExistential_eq h⟩

/-- The renaming that fails where a symbol has no replacement, whether it is met or not. -/
def strict (fuel : Nat) : Renaming := fun src dst ty =>
  if src.length ≤
    dst.length then substSym fuel src dst ty else throw (.missingReplacement dst.length src.length)

theorem strict_agreeWhereFit (fuel : Nat) : (strict fuel).AgreeWhereFit (substSym fuel) :=
  fun _ _ fits => funext fun _ => if_pos fits

end Renaming

end Conformance

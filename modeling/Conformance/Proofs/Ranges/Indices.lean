import Conformance.Proofs.Declarations
import Conformance.Proofs.Ranges.Renamings

/-! # Every index is in range

Solving goes through four lists side by side, and a shared base type takes the first of the base
types and of the arguments at a parameter. Here both are given another access to lists. They give
the same with any one that is right within a list: they make no other. -/

namespace Conformance

/-- A way to read and to write at positions of a list. -/
structure Access where
  read {α : Type} : List α → Nat → CheckM α
  write {α : Type} : List α → Nat → α → CheckM (List α)

/-- The access is right within a list, whatever it is beyond. -/
structure Access.RightWithin (acc : Access) : Prop where
  read {α : Type} {xs : List α} {i : Nat} {a : α} : xs[i]? = some a → acc.read xs i = pure a
  write {α : Type} {xs : List α} {i : Nat} (a : α) :
    i < xs.length → acc.write xs i a = pure (xs.set i a)

/-! ## Solving over columns -/

/-- Variables solved together: the variables, as types, what they stand for, and the variances. -/
structure Columns where
  vars : List VarId
  tvars : List Ty
  tparams : List SymbolId
  variances : List Variance

namespace Columns

def unknowns (g : Columns) : List Unknown :=
  (g.vars.zip (g.tparams.zip g.variances)).map fun (var, tparam, variance) =>
    { var, tparam, variance }

/-- The columns, read and written at positions. -/
def lanes (acc : Access) (g : Columns) : Lanes Nat where
  positions := List.range g.vars.length
  var := acc.read g.vars
  tvar := acc.read g.tvars
  tparam := acc.read g.tparams
  variance := acc.read g.variances
  state progress i := some <$> acc.read progress i
  mark := acc.write

end Columns

def Access.solve (acc : Access) (cfg : Config) (q : Queries) (tvars : List Ty)
    (tparams : List SymbolId) (variances : List Variance) : Bool → Depth → SolveM (List Ty) :=
  solveAlong cfg q (fun vars _ => Columns.lanes acc { vars, tvars, tparams, variances })
    tvars tparams variances

/-! ### The columns as a group -/

/-- Two computations run alike, and what they give is as `Inv` says. -/
def SolveM.Alike {α : Type} (Inv : α → Prop) (x y : SolveM α) : Prop :=
  ∀ s, x.run s = y.run s ∧ ∀ a s', y.run s = .ok (.ok a) s' → Inv a

namespace SolveM.Alike

variable {α β : Type} {Inv : α → Prop}

theorem eq {x y : SolveM α} (h : Alike Inv x y) : x = y := funext fun s => (h s).1

theorem pure {a : α} (ha : Inv a) : Alike Inv (Pure.pure a) (Pure.pure a) := by
  refine fun s => ⟨rfl, fun b s' run => ?_⟩
  cases run
  exact ha

theorem refl (x : SolveM α) : Alike (fun _ => True) x x := fun _ => ⟨rfl, fun _ _ _ => trivial⟩

theorem bind {M : β → Prop} {x y : SolveM β} {f g : β → SolveM α} (hx : Alike M x y)
    (hf : ∀ b, M b → Alike Inv (f b) (g b)) : Alike Inv (x >>= f) (y >>= g) := by
  intro s
  obtain ⟨same, mid⟩ := hx s
  have step : ∀ (z : SolveM β) (k : β → SolveM α), (z >>= k).run
    s = EStateM.bind z.run (ExceptT.bindCont k) s :=
    fun _ _ => rfl
  rw [step, step]
  unfold EStateM.bind
  rw [same]
  cases run : y.run s with
  | error e s' => exact ⟨rfl, fun _ _ h => nomatch h⟩
  | ok r s' =>
    cases r with
    | ok b => exact hf b (mid b s' run) s'
    | error e => exact ⟨rfl, fun _ _ h => nomatch h⟩

theorem ite {c : Prop} [Decidable c] {x y x' y' : SolveM α} (hx : Alike Inv x x')
    (hy : Alike Inv y y') : Alike Inv (if c then x else y) (if c then x' else y') := by
  split
  · exact hx
  · exact hy

theorem foldlM_range {A : β → Prop} {us : List α} {f : β → α × Nat → SolveM β}
    {g : β → Nat → SolveM β} (h : ∀ b i u, us[i]? = some u → A b → Alike A (g b i) (f b (u, i)))
    {b : β} (hb : A b) : Alike A ((List.range us.length).foldlM g b) (us.zipIdx.foldlM f b) := by
  have from_ : ∀ (k : Nat) (us : List α), (∀ b i u, us[i]? = some u →
      A b → Alike A (g b (k + i)) (f b (u, k + i))) →
      ∀ b, A b → Alike A ((List.range' k us.length).foldlM g b) ((us.zipIdx k).foldlM f b) := by
    intro k us
    induction us generalizing k with
    | nil => exact fun _ b hb => .pure hb
    | cons u us ih =>
      intro h b hb
      rw [List.length_cons, List.range'_succ, List.zipIdx_cons, List.foldlM_cons, List.foldlM_cons]
      refine .bind (h b 0 u rfl hb) fun b' hb' => ih (k + 1) (fun b i w hw => ?_) b' hb'
      have next := h b (i + 1) w hw
      rwa [show k + (i + 1) = k + 1 + i by omega] at next
  rw [List.range_eq_range']
  exact from_ 0 us (by simpa using h) b hb

end SolveM.Alike

/-- A reading within the list goes on with what is there. -/
theorem lift_pure_bind {α β : Type} (a : α) (f : α → SolveM β) :
    (liftM (pure a : CheckM α) : SolveM α) >>= f = f a := rfl

theorem forM_range {α : Type} {us : List α} {f : α × Nat → CheckM PUnit}
    {g : Nat → CheckM PUnit} (h : ∀ i u, us[i]? = some u → g i = f (u, i)) :
    (List.range us.length).forM g = us.zipIdx.forM f := by
  have same : (List.range us.length).map g = us.zipIdx.map f :=
    List.ext_getElem (by simp) fun i hi _ => by
    have lt : i < us.length := by simpa using hi
    simpa using h i us[i] (List.getElem?_eq_getElem lt)
  have listed : ∀ {β : Type} (xs : List β) (k : β → CheckM PUnit), xs.forM k = (xs.map k).forM id :=
    fun xs k =>
    (List.forM_map (g := k) (f := id)).symm
  rw [listed, same, ← listed]

namespace Columns

/-- The columns are of one length, and the types are the variables. -/
structure Even (g : Columns) : Prop where
  tvars : g.tvars = g.vars.map .var
  tparams : g.tparams.length = g.vars.length
  variances : g.variances.length = g.vars.length

variable {g : Columns} {acc : Access} (hacc : acc.RightWithin)

section Reads

include hacc

/-- Where there is an unknown, each column has its part of it. -/
theorem lanes_read (heven : g.Even) {i : Nat} {u : Unknown} (h : g.unknowns[i]? = some u) :
    ((g.lanes acc).var i = pure u.var ∧ (g.lanes acc).tvar i = pure (.var u.var)) ∧
      (g.lanes acc).tparam i = pure u.tparam ∧ (g.lanes acc).variance i = pure u.variance := by
  rw [unknowns, List.getElem?_map, Option.map_eq_some_iff] at h
  obtain ⟨⟨var, tparam, variance⟩, found, rfl⟩ := h
  obtain ⟨hvar, found⟩ := List.getElem?_zip_eq_some.1 found
  obtain ⟨htparam, hvariance⟩ := List.getElem?_zip_eq_some.1 found
  have htvar : g.tvars[i]? = some (.var var) := by rw [heven.tvars, List.getElem?_map, hvar]; rfl
  exact ⟨⟨hacc.read hvar, hacc.read htvar⟩, hacc.read htparam, hacc.read hvariance⟩

theorem lanes_state {progress : List Progress} {i : Nat} {state : Progress}
    (h : progress[i]? = some state) : (g.lanes acc).state progress i = pure (some state) :=
    congrArg (some <$> ·) (hacc.read h)

theorem lanes_mark {progress : List Progress} {i : Nat} (h : i < progress.length)
    (state : Progress) : (g.lanes acc).mark progress i state = pure (progress.set i state) :=
    hacc.write state h

end Reads

theorem length_unknowns (h : g.Even) : g.unknowns.length = g.vars.length := by
  simp [unknowns, h.tparams, h.variances]

variable {cfg : Config} {q : Queries} (heven : g.Even)
  {group : SolveGroup} (hgroup : group.unknowns = g.unknowns)
include hacc heven hgroup

theorem addDeclaredBounds_eq (u : Unknown) (bound : Ty) :
    (g.lanes acc).addDeclaredBounds cfg group u bound = addDeclaredBounds cfg group u bound := by
  refine bind_eq_of_run fun _ _ _ _ => bind_eq_of_run fun s _ _ _ =>
    bind_eq_of_run fun _ _ _ _ => ?_
  have positions : (g.lanes acc).positions = List.range
    g.unknowns.length := by rw [length_unknowns heven]; rfl
  rw [positions, group.lanes_positions, hgroup]
  refine forM_range fun i w hw => ?_
  obtain ⟨⟨-, htvar⟩, htparam, -⟩ := lanes_read hacc heven hw
  rw [htparam, htvar]
  rfl

theorem solveOne_alike (depth : Depth) (n : Nat) {progress : List Progress}
    (hp : progress.length = g.vars.length) {i : Nat} {u : Unknown} (hu : g.unknowns[i]? = some u) :
    SolveM.Alike (·.length = g.vars.length) ((g.lanes acc).solveOne cfg q group depth n progress i)
      (solveOne cfg q group depth n progress (u, i)) := by
  have within : ∀ {progress : List Progress} {i u}, progress.length = g.vars.length →
      g.unknowns[i]? = some u → i < progress.length := by
    intro progress i u hp hu
    rw [hp, ← length_unknowns heven]
    exact (List.getElem?_eq_some_iff.1 hu).1
  induction n generalizing progress i u with
  | zero => exact .pure hp
  | succ n ih =>
    obtain ⟨⟨hvar, -⟩, htparam, hvariance⟩ := lanes_read hacc heven hu
    have hi := within hp hu
    obtain ⟨state, hstate⟩ : ∃ state, progress[i]? = some state := ⟨_, List.getElem?_eq_getElem hi⟩
    have hset : ∀ mark, (progress.set i mark).length = g.vars.length :=
      fun mark => by rw [List.length_set, hp]
    rw [Lanes.solveOne, solveOne_succ]
    simp only [lanes_state hacc hstate, hvar, htparam,
      hvariance, lanes_mark hacc hi, lift_pure_bind, hstate]
    refine .ite (.pure hp) (.bind (.refl _) fun info _ => .ite (.pure (hset _)) ?_)
    refine .bind (.refl _) fun t _ => .bind (M := (·.1.length = g.vars.length))
      ?_ fun (progress', cyclic) hp' => ?_
    · rw [show (g.lanes acc).positions = List.range
        g.unknowns.length by rw [length_unknowns heven]; rfl, hgroup]
      refine .foldlM_range (fun (progress', cyclic) j other hother hp' => ?_) (hset _)
      obtain ⟨-, htparam', -⟩ := lanes_read hacc heven hother
      have hj : j < progress'.length := within hp' hother
      have hstate' : progress'[j]? = some progress'[j] := List.getElem?_eq_getElem hj
      simp only [htparam', lanes_state hacc hstate', lift_pure_bind, hstate']
      refine .ite (.pure hp') (.bind (.refl _) fun _ _ => .ite (.pure hp') ?_)
      exact .bind (ih hp' hother) fun _ hlen => .pure hlen
    · have done : SolveM.Alike (·.length = g.vars.length)
          (liftM ((g.lanes acc).mark progress' i .done) : SolveM (List Progress))
          (pure (progress'.set i .done)) := by
        rw [lanes_mark hacc (within hp' hu)]
        exact .pure (by rw [List.length_set, hp'])
      have chosen := SolveM.Alike.bind (.refl (chooseInst cfg q group depth u)) fun inst _ =>
        .bind (.refl (liftM (CheckM.updateVar u.var (.setInst inst))))
          fun _ _ => done
      refine .ite ?_ chosen
      rw [addDeclaredBounds_eq hacc heven hgroup]
      exact .bind (.refl _) fun _ _ => chosen

theorem solveAll_eq (depth : Depth) (n : Nat) : (g.lanes acc).positions.foldlM
    ((g.lanes acc).solveOne cfg q group depth n) (g.unknowns.map fun _ => .unsolved) =
      group.lanes.positions.foldlM (group.lanes.solveOne cfg q group depth n)
        (g.unknowns.map fun _ => .unsolved) := by
  have length := length_unknowns heven
  rw [show (g.lanes acc).positions = List.range g.unknowns.length by rw [length]; rfl,
    group.lanes_positions, hgroup]
  have begun : (g.unknowns.map fun _ => Progress.unsolved).length =
    g.vars.length := by rw [List.length_map, length]
  exact (SolveM.Alike.foldlM_range (A := (·.length = g.vars.length))
    (fun progress i u hu hp => solveOne_alike hacc heven hgroup depth _ hp hu) begun).eq

end Columns

theorem Access.RightWithin.solve_eq {acc : Access} (hacc : acc.RightWithin)
    (cfg : Config) (q : Queries) (tvars : List Ty) (tparams : List SymbolId)
    (variances : List Variance) (upper : Bool) (depth : Depth) : acc.solve cfg q tvars tparams
    variances upper depth = Conformance.solve cfg q tvars tparams variances upper depth := by
  refine ite_congr rfl (fun _ => rfl) fun sizes => ite_congr rfl (fun _ => rfl) fun sizes' => ?_
  show ExceptT.run _ = ExceptT.run _
  rw [knownVars_bind, knownVars_bind]
  refine bind_eq_of_run fun vars _ _ _ => ?_
  cases found : knownVars vars tvars with
  | error e => rfl
  | ok vs =>
    obtain ⟨htvars, -⟩ := eq_of_knownVars found
    have even : Columns.Even ⟨vs, tvars, tparams, variances⟩ :=
      ⟨htvars, by simp_all, by simp_all⟩
    exact congrArg (fun loop : SolveM (List Progress) => (loop >>= fun _ =>
      vs.mapM (checkedInst cfg q)).run) (Columns.solveAll_eq hacc even rfl depth _)

/-! ## Shared base types -/

namespace Access

variable {acc : Access} {cfg : Config} {q : Queries} {merge : Variance → List Ty → CheckM Ty}

/-- The first type is read. -/
def first (acc : Access) : TakeFirst := fun types => some <$> acc.read types 0

def sharedBaseType (acc : Access) (cfg : Config) (q : Queries) := sharedBaseTypeBy cfg q acc.first

theorem length_of_baseTypesAt {cls : SymbolId} {types : List Ty}
    {bases : List Ty} {s s' : CheckState} (h : baseTypesAt cfg cls types s = .ok (some bases) s') :
    bases.length = types.length := by
  induction types generalizing bases s with
  | nil =>
    cases h
    rfl
  | cons ty rest ih =>
    obtain ⟨base, s1, -, h⟩ := exists_of_bind h
    split at h
    · cases h
    · obtain ⟨others, s2, found, h⟩ := exists_of_bind h
      cases others with
      | none => cases h
      | some others =>
        cases h
        rw [List.length_cons, List.length_cons, ih found]

namespace RightWithin

variable (hacc : acc.RightWithin)
include hacc

theorem first_eq {types : List Ty} (some_ : types ≠ []) :
    acc.first types = TakeFirst.plain types := by
  obtain ⟨head, others, rfl⟩ := List.exists_cons_of_ne_nil some_
  have read : acc.read (head :: others) 0 = pure head := hacc.read rfl
  exact congrArg (some <$> ·) read

theorem mergeArg_eq (variance : Variance) {args : List Ty} (some_ : args ≠ []) :
    mergeArg q acc.first merge variance args = mergeArg q .plain merge variance args := by
  cases variance with
  | invariant => rw [mergeArg, mergeArg, first_eq hacc some_]
  | _ => rfl

theorem mergeArgs_eq {ps : List SymbolId} {rows : List (List Ty)} (some_ : rows ≠ [])
    (full : ∀ row ∈ rows, row.length = ps.length) :
    mergeArgs q acc.first merge ps rows = mergeArgs q .plain merge ps rows := by
  induction ps generalizing rows with
  | nil => rfl
  | cons p ps ih =>
    have column : rows.filterMap List.head? ≠ [] := by
      obtain ⟨row, rows, rfl⟩ := List.exists_cons_of_ne_nil some_
      obtain ⟨arg, args, rfl⟩ : ∃ arg args, row = arg :: args := by
        cases row with
        | nil => cases full [] List.mem_cons_self
        | cons arg args => exact ⟨arg, args, rfl⟩
      simp
    have rest : mergeArgs q acc.first merge ps (rows.map List.tail) =
      mergeArgs q .plain merge ps (rows.map List.tail) := by
      refine ih (by simpa using some_) fun row mem => ?_
      obtain ⟨row', mem', rfl⟩ := List.mem_map.1 mem
      rw [List.length_tail, full row' mem', List.length_cons, Nat.add_sub_cancel]
    refine bind_eq_of_run fun t _ _ _ => ?_
    dsimp only
    rw [mergeArg_eq hacc _ column, rest]

theorem sharedBaseTypeAt_eq {types : List Ty} (some_ : types ≠ []) :
    sharedBaseTypeAt cfg q acc.first merge types = sharedBaseTypeAt cfg q .plain merge types := by
  refine funext fun cls => bind_eq_of_run fun found _ _ run => ?_
  cases found with
  | none => rfl
  | some bases =>
    obtain ⟨base, bases, rfl⟩ : ∃ base rest, bases = base :: rest := by
      have length := length_of_baseTypesAt run
      exact List.exists_cons_of_length_pos (by rw [length]; exact List.length_pos_iff.2 some_)
    dsimp only
    rw [first_eq hacc (List.cons_ne_nil base bases)]
    refine bind_eq_of_run fun head _ _ read => ?_
    cases read
    refine bind_eq_of_run fun t _ _ _ => ite_congr rfl (fun _ => rfl) fun _ => ?_
    cases rows? : (base :: bases).mapM (argsOf (t.tparams cls).length) with
    | none => cases base <;> rfl
    | some rows =>
      have found := rows_of_mapM rows?
      have full : ∀ row ∈ rows, row.length = (t.tparams cls).length := fun row mem =>
        (exists_of_forall₂ found mem).elim fun _ ⟨_, _, _, _, length⟩ => length
      obtain _ | ⟨⟨pre, s, rfl, _⟩, _⟩ := found
      dsimp only
      rw [mergeArgs_eq hacc (List.cons_ne_nil _ _) full]

theorem sharedBaseType_eq (types : List Ty) :
    acc.sharedBaseType cfg q merge types = Conformance.sharedBaseType cfg q merge types := by
  cases types with
  | nil => rfl
  | cons first rest =>
    rw [Access.sharedBaseType, sharedBaseTypeBy, hacc.sharedBaseTypeAt_eq
      (List.cons_ne_nil first rest)]
    rfl

end RightWithin

end Access

/-- The access that fails beyond the end of a list. -/
def Access.strict : Access where
  read xs i := match xs[i]? with
    | some a => pure a
    | none => throw (.missingReplacement xs.length i)
  write xs i a :=
    if i < xs.length then pure (xs.set i a) else throw (.missingReplacement xs.length i)

theorem Access.strict_rightWithin : Access.strict.RightWithin where
  read {α xs i a} found := by
    show (match xs[i]? with
      | some a => pure a
      | none => throw (.missingReplacement xs.length i) : CheckM α) = pure a
    rw [found]
  write _ within := if_pos within

/-! ## The operations -/

/-- A renaming that is asked for has a replacement for each symbol, and no function of the asker's
own is run. -/
def TypeOperation.Fits : TypeOperation → Prop
  | .substSym src dst _ => src.length ≤ dst.length
  | .mapOver .. => False
  | _ => True

theorem TypeOperation.run_unfailing {op : TypeOperation}
    (fits : op.Fits) (fuel : Nat) : Unfailing (op.run fuel) := by
  have asked : op.isQuestion = true := by
    cases op with
    | mapOver => exact fits.elim
    | _ => rfl
  refine op.run_walks (R := fun x _ => Unfailing x) unfailing.walk (fun h => OneRun.holds h)
    (op.within_all asked) ?_ fuel
  rintro src dst ty rfl
  exact fits

theorem Config.run_unfailing {cfg : Config} (ha : ∀ l r, Unfailing (cfg.annotations l r))
    (op : Operation) : Unfailing (cfg.run op) := by
  intro s e s' run
  rw [run_eq] at run
  have hq := queriesUpTo_needFuelOnly ha (levelsLeft s)
  have asked : Unfailing (op.asking cfg (cfg.queriesUpTo (levelsLeft s))) := by
    cases op with
    | suspend | resume | resetStats => exact .of_answers fun _ => ⟨_, _, rfl⟩
    | _ => exact Unfailing.stepwise.operation cfg hq nofun rfl fun _ _ _ _ _ _ =>
      Unfailing.stepwise.solve hq (Unfailing.stepwise.solveOne_of_writes hq .updateVar) _ _ _ _ _
  exact asked s e s' run

/-- No operation fails but for want of fuel, as long as the annotation checker does not. The
renamings it makes have a replacement for each symbol, and it reads and writes within its lists. -/
theorem Config.operations_stay_in_range {cfg : Config}
    (ha : ∀ l r, Unfailing (cfg.annotations l r)) : (∀ op : Operation, Unfailing (cfg.run op)) ∧
    (∀ op : TypeOperation, op.Fits → Unfailing (op.run cfg.fuel)) ∧
    (∀ fuel (rn : Renaming), rn.AgreeWhereFit (substSym fuel) → rn.ServesTypes fuel) ∧
    (∀ (q : Queries) (rn : Renaming), rn.AgreeWhereFit (substSym cfg.fuel) → rn.ServesRules cfg q) ∧
    ∀ (q : Queries) (acc : Access), acc.RightWithin →
      (∀ tvars tparams variances upper depth, acc.solve cfg q tvars tparams variances upper depth =
        solve cfg q tvars tparams variances upper depth) ∧
      ∀ merge types, acc.sharedBaseType cfg q merge types = sharedBaseType cfg q merge types :=
  ⟨run_unfailing ha, fun _ fits => TypeOperation.run_unfailing fits _, fun _ _ agree =>
    agree.servesTypes, fun q _ agree => agree.servesRules q, fun q _ right =>
    ⟨right.solve_eq cfg q, fun _ types => right.sharedBaseType_eq types⟩⟩

theorem AnnotationChecker.typeConstraints_unfailing (l r : Ty) : Unfailing (typeConstraints l r) :=
  .bind .get fun _ => .pure _

/-- A method that binds one unknown symbol twice, against one that binds it once. -/
theorem Config.twice_bound_in_range :
    let cfg : Config := { policy := {}, annotations := .typeConstraints, fuel := 64 }
    let twice : Ty := .method [⟨900⟩, ⟨900⟩] (.single .noPrefix ⟨900⟩) {}
    let once : Ty := .method [⟨900⟩] (.single .noPrefix ⟨900⟩) {}
    (∀ l r, Unfailing (cfg.annotations l r)) ∧ Unfailing (cfg.run (.isSameType twice once)) ∧
      (Renaming.strict 64).ServesRules cfg (cfg.queriesUpTo 8) ∧
      Access.strict.solve cfg (cfg.queriesUpTo 8) [.var ⟨0⟩, .var ⟨0⟩]
        [⟨900⟩] [.invariant] true .unlimited = solve cfg (cfg.queriesUpTo 8)
        [.var ⟨0⟩, .var ⟨0⟩] [⟨900⟩] [.invariant] true .unlimited := by
  intro cfg twice once
  have ha : ∀ l r, Unfailing (cfg.annotations l r) := AnnotationChecker.typeConstraints_unfailing
  obtain ⟨operations, -, -, rules, indices⟩ := operations_stay_in_range ha
  exact ⟨ha, operations (.isSameType twice once), rules _ _ (Renaming.strict_agreeWhereFit 64),
    (indices _ _ Access.strict_rightWithin).1 _ _ _ _ _⟩

end Conformance

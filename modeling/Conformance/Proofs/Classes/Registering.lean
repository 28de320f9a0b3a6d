import Conformance.Proofs.Classes.Merging
import Conformance.Proofs.Growth

/-! # Bounds that a query registers

Where a class type is compared with a class applied to open variables, the variables take bounds.
The answer `true` is right for every choice of types for the variables that meets the bounds they
have in the end: the comparison is accepted with these types filled in. -/

namespace Conformance

open SymbolTable SymM CheckM

mutual
/-- `ty` with the types that `σ` gives to its variables. -/
def Ty.fill (σ : VarId → Ty) : Ty → Ty
  | .var v => σ v
  | .ref pre s args => .ref pre s (Ty.fillAll σ args)
  | ty => ty

def Ty.fillAll (σ : VarId → Ty) : List Ty → List Ty
  | [] => []
  | ty :: tys => ty.fill σ :: Ty.fillAll σ tys
end

@[simp] theorem Ty.fillAll_eq_map (σ : VarId → Ty)
    (tys : List Ty) : Ty.fillAll σ tys = tys.map (Ty.fill σ) := by
  induction tys with
  | nil => rfl
  | cons ty tys ih => rw [Ty.fillAll, ih, List.map_cons]

@[simp] theorem Ty.fill_ref (σ : VarId → Ty) (pre : Ty) (s : SymbolId) (args : List Ty) :
    (Ty.ref pre s args).fill σ = .ref pre s (args.map (Ty.fill σ)) := by
  rw [Ty.fill, Ty.fillAll_eq_map]

namespace SymbolTable

variable {t : SymbolTable} {vs : VarId → Prop} {σ : VarId → Ty}
  {ps : List SymbolId} {args : List Ty}

/-- Types built from the variables in `vs` by classes applied to all their arguments. -/
inductive OpenTerm (t : SymbolTable) (vs : VarId → Prop) : Ty → Prop where
  | var {v : VarId} (mem : vs v) : OpenTerm t vs (.var v)
  | app {pkg c : SymbolId} {args : List Ty} (applied : t.Applied pkg c args)
      (terms : ∀ a ∈ args, OpenTerm t vs a) : OpenTerm t vs (.ref (.this pkg) c args)

theorem OpenTerm.congruent : t.Congruent (t.OpenTerm vs) := .app

theorem OpenTerm.applied {pkg c : SymbolId} (h : t.OpenTerm vs (.ref (.this pkg) c args)) :
    t.Applied pkg c args := by
  cases h with
  | app applied _ => exact applied

theorem OpenTerm.arg {pkg c : SymbolId} (h : t.OpenTerm vs (.ref (.this pkg) c args))
    {a : Ty} (ha : a ∈ args) : t.OpenTerm vs a := by
  cases h with
  | app _ terms => exact terms a ha

theorem ClassType.openTerm {ty : Ty} (h : t.ClassType ty) : t.OpenTerm vs ty := by
  induction h with
  | param mem => cases mem
  | app package plain arity _ ih => exact .app ⟨package, plain, arity⟩ ih

theorem ClassType.fill_eq {ty : Ty} (h : t.ClassType ty) : ty.fill σ = ty := by
  induction h with
  | param mem => cases mem
  | app _ _ _ _ ih =>
    rw [Ty.fill_ref]
    congr 1
    exact (List.map_congr_left ih).trans (List.map_id _)

theorem ClassTerm.fill_inst {g : Ty} (h : t.ClassTerm ps g) (arity : args.length = ps.length) :
    (g.inst ps args).fill σ = g.inst ps (args.map (Ty.fill σ)) := by
  induction h with
  | param mem =>
    obtain ⟨a, ha, -⟩ := exists_arg mem arity
    rw [Ty.inst_param ha mem, Ty.inst_param (a := a.fill σ) (by simp [ha]) mem]
  | app _ _ _ _ ih =>
    simp only [Ty.inst_app, Ty.fill_ref, List.map_map]
    congr 1
    exact List.map_congr_left ih

/-- The same supertype is found when the variables are filled. -/
theorem Nearest.fill (ht : t.Plain) {pkg c d : SymbolId} {as bs : List Ty} (hl : t.Applied pkg c as)
    (h : t.Nearest d (.ref (.this pkg) c as) bs) :
    t.Nearest d (.ref (.this pkg) c (as.map (Ty.fill σ))) (bs.map (Ty.fill σ)) := by
  generalize eq : Ty.ref (.this pkg) c as = l at h
  induction h generalizing pkg c as with
  | here => cases eq; exact .here
  | up other plain first _ ih =>
    cases eq
    obtain ⟨_, _, gs, rfl, -, term, applied⟩ := ht.super_applied
      hl (List.mem_of_find?_eq_some first)
    rw [Ty.inst_app] at ih
    have rest := ih applied rfl
    refine .up other plain first ?_
    rw [← Ty.fill_ref, ← Ty.inst_app, term.fill_inst hl.arity] at rest
    exact rest

theorem Pointwise.fill {R : Ty → Ty → Prop} {as bs : List Ty}
    (h : t.Pointwise (fun a b => R (a.fill σ) (b.fill σ)) ps as bs) :
    t.Pointwise R ps (as.map (Ty.fill σ)) (bs.map (Ty.fill σ)) := by
  refine ⟨by simpa using h.len, fun i p a' b' hp ha' hb' hvar =>
    ?_, fun i p a' b' hp ha' hb' hvar => ?_⟩
  · obtain ⟨a, ha, rfl⟩ := by simpa using ha'
    obtain ⟨b, hb, rfl⟩ := by simpa using hb'
    exact h.co i p a b hp ha hb hvar
  · obtain ⟨a, ha, rfl⟩ := by simpa using ha'
    obtain ⟨b, hb, rfl⟩ := by simpa using hb'
    exact h.contra i p a b hp ha hb hvar

end SymbolTable

/-! ## Runs that register bounds -/

namespace CheckM

/-- The bounds are class types. -/
structure Ranged (t : SymbolTable) (info : VarInfo Ty) : Prop where
  lo : ∀ b ∈ info.constraint.lo, t.ClassType b
  hi : ∀ b ∈ info.constraint.hi, t.ClassType b

/-- The variables in `vs` are open, over a table with the classes of `t`. -/
structure Open (t : SymbolTable) (vs : VarId → Prop) (s : CheckState) : Prop where
  remembers : t.Remembers s.table
  vars : ∀ v, vs v → ∃ info, s.vars.info? v = some info ∧
    info.suspended = false ∧ info.constraint.inst = none ∧ Ranged t info

/-- The types that `σ` gives to the variables in `vs` are within their bounds. -/
def Meets (t : SymbolTable) (vs : VarId → Prop) (σ : VarId → Ty) (l : VarLog Ty) : Prop :=
  ∀ v, vs v → ∀ info, l.info? v = some info →
    (∀ b ∈ info.constraint.lo, t.Accepts b (σ v)) ∧ ∀ b ∈ info.constraint.hi, t.Accepts (σ v) b

variable {t : SymbolTable} {vs : VarId → Prop} {σ : VarId → Ty}

/-- Bounds are only added. -/
theorem Meets.of_grows {l l' : VarLog Ty} (h : Meets t vs σ l')
    (grows : l.Grows l') : Meets t vs σ l := by
  intro v hv info hinfo
  obtain ⟨info', hinfo', more⟩ := grows v.val info hinfo
  obtain ⟨lo, hi⟩ := h v hv info' hinfo'
  exact ⟨fun b hb => lo b (more.lo.subset hb), fun b hb => hi b (more.hi.subset hb)⟩

/-- From a state with open variables, a result of `x` leaves them open and adds bounds at most; and
the answer `true` gives `A` if the bounds are met in the end. -/
def Registers (t : SymbolTable) (vs : VarId → Prop)
    (σ : VarId → Ty) (x : CheckM Bool) (A : Prop) : Prop :=
  ∀ s, Open t vs s → ∀ b s', x s = .ok b s' →
    Open t vs s' ∧ s.vars.Grows s'.vars ∧ (b = true → Meets t vs σ s'.vars → A)

namespace Registers

variable {x y : CheckM Bool} {A B : Prop}

theorem imp (hx : Registers t vs σ x A) (h : A → B) : Registers t vs σ x B := fun s hs b s' run =>
  have ⟨stays, grows, yes⟩ := hx s hs b s' run
  ⟨stays, grows, fun hb meets => h (yes hb meets)⟩

theorem no : Registers t vs σ (pure false) A := by
  intro s hs b s' run
  cases run
  exact ⟨hs, .of_vars_eq rfl, nofun⟩

theorem yes (h : A) : Registers t vs σ (pure true) A := by
  intro s hs b s' run
  cases run
  exact ⟨hs, .of_vars_eq rfl, fun _ _ => h⟩

theorem after {α : Type} {x : CheckM α} {f : α → CheckM Bool}
    {P Q : α → Prop} {ok : Prop} (hx : ∀ n, Settles t.Remembers n ok x P Q)
    (hf : ∀ a, P a → Registers t vs σ (f a) A) : Registers t vs σ (x >>= f) A := by
  intro s hs b s' run
  obtain ⟨a, s1, first, rest⟩ := exists_of_bind run
  have settled := hx s.guard.maxDepth s hs.remembers (by omega)
  rw [first] at settled
  obtain ⟨stays, hP, -⟩ := settled
  have same := stays.vars.vars
  have hs1 : Open t vs s1 := ⟨stays.table, by simpa only [UndoLog.info?, same] using hs.vars⟩
  obtain ⟨hs', grows, yes⟩ := hf a hP s1 hs1 b s' rest
  exact ⟨hs', (UndoLog.Grows.of_vars_eq same).trans grows, yes⟩

theorem of_settles {Q : Bool → Prop} {ok : Prop}
    (hx : ∀ n, Settles t.Remembers n ok x (fun b => b = true → A) Q) : Registers t vs σ x A := by
  have := after (f := pure) hx fun b (hb : b = true → A) => by
    cases b with
    | false => exact (no : Registers t vs σ (pure false) A)
    | true => exact yes (hb rfl)
  simpa using this

theorem of_run (hy : Registers t vs σ y A) (h : ∀ s, t.Remembers s.table → x s = y s) :
    Registers t vs σ x A := by
  intro s hs b s' run
  rw [h s hs.remembers] at run
  exact hy s hs b s' run

theorem readTable {f : SymbolTable → CheckM Bool} (h : ∀ t', t.Remembers t' →
    Registers t vs σ (f t') A) : Registers t vs σ (CheckM.readTable >>= f) A :=
  after (fun n => (.readTable : Settles t.Remembers n True _ _ _)) h

theorem and (hx : Registers t vs σ x A) (hy : Registers t vs σ y B) :
    Registers t vs σ (x >>= fun b => if !b then pure false else y) (A ∧ B) := by
  intro s hs b s' run
  obtain ⟨a, s1, first, rest⟩ := exists_of_bind run
  obtain ⟨hs1, grows, yes⟩ := hx s hs a s1 first
  cases a with
  | false =>
    cases rest
    exact ⟨hs1, grows, nofun⟩
  | true =>
    obtain ⟨hs', grows', yes'⟩ := hy s1 hs1 b s' rest
    exact ⟨hs', grows.trans grows', fun hb meets =>
      ⟨yes rfl (meets.of_grows grows'), yes' hb meets⟩⟩

theorem or (hx : Registers t vs σ x A) (hy : Registers t vs σ y A) :
    Registers t vs σ (x >>= fun b => if b then pure true else y) A := by
  intro s hs b s' run
  obtain ⟨a, s1, first, rest⟩ := exists_of_bind run
  obtain ⟨hs1, grows, yes⟩ := hx s hs a s1 first
  cases a with
  | true =>
    cases rest
    exact ⟨hs1, grows, yes⟩
  | false =>
    obtain ⟨hs', grows', yes'⟩ := hy s1 hs1 b s' rest
    exact ⟨hs', grows.trans grows', yes'⟩

/-- A query keeps what its rule did if it answers `true`, and gives the variables back otherwise. -/
theorem query {enter : Guard.Entering} {op : Relation} {depth : Option Nat}
    (hx : Registers t vs σ x A) (atomic : Atomic (reported op depth (guarded enter x))) :
    Registers t vs σ (reported op depth (guarded enter x)) A := by
  intro s hs b s' run
  have back : b = false → s'.vars = s.vars := by
    rintro rfl
    have := atomic s (by rw [answer?_ok run]; decide)
    rwa [after_ok run] at this
  obtain ⟨-, rfl, rfl⟩ | ⟨entry, s1, -, rule, rfl⟩ := query_ok run
  · exact ⟨⟨by simpa using hs.remembers, by simpa using hs.vars⟩, .of_vars_eq (by simp), fun h =>
      absurd h Bool.false_ne_true⟩
  obtain ⟨hs2, grows, yes⟩ := hx _
    ⟨by simpa [opened] using hs.remembers, by simpa [opened, UndoLog.info?] using hs.vars⟩ b s1 rule
  cases b with
  | true =>
    refine ⟨⟨by simpa [left] using hs2.remembers, by simpa [left, UndoLog.info?] using hs2.vars⟩,
      ?_, ?_⟩
    · intro i info hinfo
      simpa [left] using grows i info (by simpa [opened] using hinfo)
    · intro hb meets
      exact yes rfl (by simpa [left, Meets, UndoLog.info?] using meets)
  | false =>
    refine ⟨⟨by simpa [left, undone] using hs2.remembers, ?_⟩,
      .of_vars_eq (by rw [back rfl]), fun h => absurd h Bool.false_ne_true⟩
    rw [back rfl]
    exact hs.vars

end Registers

end CheckM

variable {t : SymbolTable} {vs : VarId → Prop} {σ : VarId → Ty} {cfg : Config}
  {q : Queries} {pkg pkg' c d : SymbolId} {as bs : List Ty} {l r : Ty} {depth : Depth}

/-! ## Registering a bound -/

/-- `b` stands for `l` as a bound. -/
structure SymbolTable.StandsFor (t : SymbolTable) (b l : Ty) : Prop where
  closed : t.ClassType b
  left : ∀ ty, t.Accepts b ty → t.Accepts l ty
  right : ∀ ty, t.Accepts ty b → t.Accepts ty l

theorem boundFor_settles {n : Nat} (ht : t.Rooted) (hl : t.ClassType l) :
    Settles t.Remembers n True (boundFor cfg l) (t.StandsFor · l) fun _ => True := by
  obtain ⟨pkg, c, as, rfl⟩ := hl.shape
  have arity := hl.applied.arity
  unfold boundFor
  refine .bind (.onTable (Q := fun _ => True) (typeSymbol_yields hl.isPlainClass) id fun _ _ =>
    trivial) fun s hs => ?_
  subst hs
  -- `Any` and `Nothing` have no arguments, and the path to them does not matter
  by_cases any : s = Known.any
  · subst any
    rw [ht.any_tparams] at arity
    obtain rfl : as = [] := List.eq_nil_of_length_eq_zero arity
    exact .pure ⟨ht.anyType, fun _ h => h.left_package, fun _ h => h.right_package⟩ fun _ => trivial
  · rw [if_neg (by simpa using any)]
    by_cases nothing : s = Known.nothing
    · subst nothing
      rw [ht.nothing_tparams] at arity
      obtain rfl : as = [] := List.eq_nil_of_length_eq_zero arity
      exact .pure ⟨ht.nothingType, fun _ h => h.left_package, fun _ h => h.right_package⟩ fun _ =>
        trivial
    · rw [if_neg (by simpa using nothing)]
      exact .pure ⟨hl, fun _ h => h, fun _ h => h⟩ fun _ => trivial

/-- A bound on the given side is met. -/
def Side.Meets (t : SymbolTable) (ty bound : Ty) : Side → Prop
  | .lower => t.Accepts bound ty
  | .upper => t.Accepts ty bound

theorem VarInfo.mem_addBound (side : Side) (b : Ty) (info : VarInfo Ty) : (∀ x, x ∈
    (info.addBound side b).constraint.lo ↔ x ∈ info.constraint.lo ∨ side = .lower ∧ x = b) ∧
      ∀ x, x ∈ (info.addBound side b).constraint.hi ↔
        x ∈ info.constraint.hi ∨ side = .upper ∧ x = b := by
  cases side with
  | lower =>
    simp only [addBound, Constraint.addLo]
    split <;> simp_all
  | upper =>
    simp only [addBound, Constraint.addHi]
    split <;> simp_all

theorem CheckM.Ranged.addBound {info : VarInfo Ty} (h : Ranged t info)
    {b : Ty} (hb : t.ClassType b) (side : Side) : Ranged t (info.addBound side b) := by
  obtain ⟨lo, hi⟩ := info.mem_addBound side b
  refine ⟨fun x hx => ?_, fun x hx => ?_⟩
  · obtain old | ⟨-, rfl⟩ := (lo x).1 hx
    · exact h.lo x old
    · exact hb
  · obtain old | ⟨-, rfl⟩ := (hi x).1 hx
    · exact h.hi x old
    · exact hb

theorem updateVar_registers {v : VarId} {b : Ty} {side : Side}
    (hv : vs v) (hb : t.ClassType b) : Registers t vs σ (do
      updateVar v (VarInfo.addBound side b)
      return true) (side.Meets t (σ v) b) := by
  intro s hs a s' run
  cases run
  obtain ⟨info, hinfo, suspended, free, ranged⟩ := hs.vars v hv
  have written := UndoLog.info?_update_self hinfo (VarInfo.addBound side b)
  refine ⟨⟨hs.remembers, fun w hw => ?_⟩, ?_, fun _ meets => ?_⟩
  · by_cases same : v = w
    · subst same
      exact ⟨_, written, (info.grows_addBound side b).suspended.trans suspended,
        (info.inst_addBound side b).trans free, ranged.addBound hb side⟩
    · obtain ⟨info', hinfo', rest⟩ := hs.vars w hw
      exact ⟨info', (s.vars.info?_update_of_ne same _).trans hinfo', rest⟩
  · exact (UndoLog.Grows.of_vars_eq rfl).update fun a b' _ grows =>
      grows.trans (b'.grows_addBound side b)
  · obtain ⟨lo, hi⟩ := meets v hv _ written
    obtain ⟨memLo, memHi⟩ := info.mem_addBound side b
    cases side with
    | lower => exact lo b ((memLo b).2 (.inr ⟨rfl, rfl⟩))
    | upper => exact hi b ((memHi b).2 (.inr ⟨rfl, rfl⟩))

/-- A class type is registered as a bound of an open variable. -/
theorem registerBound_registers (ht : t.Rooted) {v : VarId}
    {side : Side} (hv : vs v) (hl : t.ClassType l) :
    Registers t vs σ (registerBound cfg q side v l) (side.Meets t (σ v) l) := by
  have write : ∀ info, Registers t vs σ (do
      if !(← CheckM.readTable).isRelatable info l then return false
      let bound ← boundFor cfg l
      CheckM.updateVar v (VarInfo.addBound side bound)
      return true) (side.Meets t (σ v) l) := by
    intro level
    refine .readTable fun t' _ => ?_
    split
    · exact .no
    · refine .after (fun n => boundFor_settles ht hl) fun b hb =>
        (updateVar_registers hv hb.closed).imp ?_
      cases side with
      | lower => exact hb.left _
      | upper => exact hb.right _
  intro s hs a s' run
  obtain ⟨info, hinfo, suspended, free, -⟩ := hs.vars v hv
  refine write info.level s hs a s' ?_
  rw [← run, registerBound, varInfo?_run, hinfo]
  simp only [suspended, free, Bool.false_eq_true, if_false]

/-! ## References -/

theorem Registers.judged : Judged t fun x A _ => Registers t vs σ x A :=
  ⟨.yes, fun hx h _ => hx.imp h, .readTable, .and⟩

/-- One side is closed, the other one may have open variables. -/
def SymbolTable.HalfOpen (t : SymbolTable) (vs : VarId → Prop) (l r : Ty) : Prop :=
  t.ClassType l ∧ t.OpenTerm vs r ∨ t.OpenTerm vs l ∧ t.ClassType r

theorem SymbolTable.HalfOpen.terms (h : t.HalfOpen vs l r) : t.OpenTerm vs l ∧ t.OpenTerm vs r :=
  h.elim (fun h => ⟨h.1.openTerm, h.2⟩) fun h => ⟨h.1, h.2.openTerm⟩

theorem SymbolTable.HalfOpen.args
    (h : t.HalfOpen vs (.ref (.this pkg) c as) (.ref (.this pkg') d bs))
    {a b : Ty} (ha : a ∈ as) (hb : b ∈ bs) : t.HalfOpen vs a b ∧ t.HalfOpen vs b a := by
  obtain ⟨hl, hr⟩ | ⟨hl, hr⟩ := h
  · exact ⟨.inl ⟨hl.arg ha, hr.arg hb⟩, .inr ⟨hr.arg hb, hl.arg ha⟩⟩
  · exact ⟨.inr ⟨hl.arg ha, hr.arg hb⟩, .inl ⟨hr.arg hb, hl.arg ha⟩⟩

/-- Queries register what their answers need. -/
def Queries.Register (t : SymbolTable) (vs : VarId → Prop) (σ : VarId → Ty) (q : Queries) : Prop :=
  ∀ l r, t.HalfOpen vs l r → ∀ depth, Registers t vs σ (q.sub l r depth)
    (t.Accepts (l.fill σ) (r.fill σ))

section References

variable (ht : t.Plain) (h : t.HalfOpen vs (.ref (.this pkg) c as) (.ref (.this pkg') d bs))
include ht h

/-- The supertype that is found has the variables of the type. -/
theorem SymbolTable.HalfOpen.nearest {pkg'' : SymbolId} {cs : List Ty} (package : t.IsPackage pkg'')
    (nearest : t.Nearest d (.ref (.this pkg) c as) cs) :
    t.HalfOpen vs (.ref (.this pkg'') d cs) (.ref (.this pkg') d bs) := by
  obtain ⟨hl, hr⟩ | ⟨hl, hr⟩ := h
  · have found := nearest.applied ht ClassTerm.congruent hl.applied (fun _ => hl.arg) package
    exact .inl ⟨ClassTerm.congruent found.1 found.2, hr⟩
  · have found := nearest.applied ht OpenTerm.congruent hl.applied (fun _ => hl.arg) package
    exact .inr ⟨.app found.1 found.2, hr⟩

theorem refsConform_registers (hq : q.Register t vs σ) :
    Registers t vs σ (refsConform cfg q (.this pkg) c as (.this pkg') d bs depth)
      (t.Accepts ((Ty.ref (.this pkg) c as).fill σ) ((Ty.ref (.this pkg') d bs).fill σ)) := by
  obtain ⟨hl, hr⟩ := h.terms
  have hd := hr.applied.plain
  simp only [Ty.fill_ref]
  have last : Registers t vs σ (rightRef cfg q (.ref (.this pkg) c as) (.this pkg') d bs depth)
      (t.Accepts (.ref (.this pkg) c (as.map (Ty.fill σ)))
      (.ref (.this pkg') d (bs.map (Ty.fill σ)))) :=
    .of_settles fun n => (rightRef_decided ht hl.applied hr.applied).imp (fun h => h.accepts hd) id
  unfold refsConform
  refine .readTable fun t' ht' => ?_
  have search : Registers t vs σ (baseSearch cfg q (.this pkg) c as (.this pkg') d bs depth t')
      (t.Accepts (.ref (.this pkg) c (as.map (Ty.fill σ)))
      (.ref (.this pkg') d (bs.map (Ty.fill σ)))) := by
    unfold baseSearch
    split
    · have found := baseType_yields ht cfg.fuel hl.applied hd
      refine .after (fun n => .onTable (Q := fun _ => True) found id fun _ _ =>
        trivial) fun base hbase => ?_
      split
      · obtain ⟨-, rfl⟩ | ⟨pkg'', cs, rfl, package, nearest⟩ := hbase
        · cases ‹(_ && Ty.isPresent .noType) = true›
        · refine .or ((hq _ _ (h.nearest ht package nearest) depth.decr).imp fun accepted =>
            ?_) last
          simp only [Ty.fill_ref] at accepted
          exact accepted.of_nearest ht hd (nearest.fill ht hl.applied)
      · exact last
    · exact last
  have constructor : ∀ n, Settles t.Remembers n (Fueled t cfg.fuel) (constructorConforms
      cfg q (.this pkg) c (.this pkg') d depth) (· = decide (c = d)) fun _ => True := fun n =>
    constructorConforms_concrete Fueled.pos Remembers.get_eq trivial trivial hl.applied.plain.owned
      (by rw [SymbolRecord.isAbstractType, hd.isClass]; simp)
  refine .after constructor fun b hb => ?_
  subst hb
  by_cases same : c = d
  · subst same
    have tparams :
      t'.tparams c = t.tparams c := by rw [SymbolTable.tparams, ht'.get_eq, SymbolTable.tparams]
    have len : as.length = bs.length := hl.applied.arity.trans hr.applied.arity.symm
    have args : Registers t vs σ (argsConform q depth as bs (t'.tparams c))
        (t.Pointwise (fun a b => t.Accepts (a.fill σ) (b.fill σ)) (t.tparams c) as bs) := by
      rw [argsConform, tparams, if_pos ⟨len, hl.applied.arity⟩]
      refine Registers.judged.subArgs (D := fun _ _ => True)
        ⟨len, fun i p a b _ ha hb _ => ?_, fun i p a b _ ha hb _ => ?_⟩ hl.applied.arity
      · exact hq a b (h.args (List.mem_of_getElem? ha) (List.mem_of_getElem? hb)).1 depth
      · exact hq b a (h.args (List.mem_of_getElem? ha) (List.mem_of_getElem? hb)).2 depth
    simp only [decide_true, if_true]
    exact .or (args.imp fun args => .of_args hd .here args.fill) search
  · simp only [same, decide_false, Bool.false_eq_true, if_false]
    exact search

end References

/-! ## The cascade -/

theorem SymbolTable.OpenTerm.ordinary {t' : SymbolTable}
    (h : t.OpenTerm vs l) (ht' : t.Remembers t') : t'.IsOrdinary l := by
  cases h with
  | app applied _ => exact ht'.ordinary_app applied
  | var => exact ⟨rfl, rfl, nofun, rfl, rfl, rfl⟩

theorem subStep_registers (ht : t.Rooted) (hq : q.Register t vs σ) (h : t.HalfOpen vs l r) :
    Registers t vs σ (subStep cfg q l r depth) (t.Accepts (l.fill σ) (r.fill σ)) := by
  by_cases same : l = r
  · subst same
    have closed : t.ClassType l := h.elim And.left And.right
    rw [subStep_refl, closed.fill_eq]
    exact .yes (.refl closed.joined)
  obtain ⟨hl, hr⟩ := h.terms
  refine .of_run ?_ fun s hs => subStep_ordinary_run (hl.ordinary hs) (hr.ordinary hs) same
  cases hr with
  | var mem =>
    have closed : t.ClassType l := h.elim And.left fun h => nomatch h.2
    rw [closed.fill_eq]
    obtain ⟨_, _, _, rfl⟩ := closed.shape
    exact registerBound_registers ht mem closed
  | app =>
    cases hl with
    | var mem =>
      have closed := h.elim (fun h => nomatch h.1) And.right
      rw [closed.fill_eq]
      exact registerBound_registers ht mem closed
    | app => exact refsConform_registers ht.plain h hq

namespace Config

theorem queriesUpTo_register (cfg : Config) (ht : t.Rooted)
    (n : Nat) : (cfg.queriesUpTo n).Register t vs σ := by
  induction n with
  | zero =>
    exact fun l r _ depth => .query .no ((cfg.queriesUpTo_transactional 0).sub_atomic l r depth)
  | succ n ih =>
    exact fun l r h depth => .query (subStep_registers ht ih h)
      ((cfg.queriesUpTo_transactional (n + 1)).sub_atomic l r depth)

end Config

end Conformance

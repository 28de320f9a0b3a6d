import Conformance.Proofs.Atomicity

/-! # What a query keeps only adds to the variables

Bounds are appended, a variable is instantiated once, and variables are made but never dropped. So
the variables are ordered by what is known of them, every rule moves up in this order, and a run
that comes back to where it was has registered nothing on the way.

The two rules that instantiate a variable look whether it is open and write later. What they ask in
between may have instantiated it; the write is measured against the variable as it was looked at. -/

namespace Conformance

variable {x : VarId} {s : CheckState}

/-- At least as much is known of the variable. -/
structure VarInfo.Grows {τ : Type} (a b : VarInfo τ) : Prop where
  origin : b.origin = a.origin
  level : b.level = a.level
  suspended : b.suspended = a.suspended
  lo : a.constraint.lo <+: b.constraint.lo
  hi : a.constraint.hi <+: b.constraint.hi
  inst : ∀ ty, a.constraint.inst = some ty → b.constraint.inst = some ty

namespace VarInfo.Grows

variable {τ : Type} {a b c : VarInfo τ}

theorem refl (a : VarInfo τ) : a.Grows a :=
    ⟨rfl, rfl, rfl, List.prefix_refl _, List.prefix_refl _, fun _ h => h⟩

theorem trans (h : a.Grows b) (h' : b.Grows c) : a.Grows c :=
  ⟨h'.origin.trans h.origin, h'.level.trans h.level, h'.suspended.trans h.suspended,
    h.lo.trans h'.lo, h.hi.trans h'.hi, fun ty hty => h'.inst ty (h.inst ty hty)⟩

theorem antisymm (h : a.Grows b) (h' : b.Grows a) : b = a := by
  obtain ⟨origin, level, suspended, lo, hi, inst⟩ := a
  obtain ⟨origin', level', suspended', lo', hi', inst'⟩ := b
  obtain rfl : origin' = origin := h.origin
  obtain rfl : level' = level := h.level
  obtain rfl : suspended' = suspended := h.suspended
  obtain rfl : lo' = lo := h'.lo.eq_of_length_le h.lo.length_le
  obtain rfl : hi' = hi := h'.hi.eq_of_length_le h.hi.length_le
  have eq : inst' = inst := by
    cases inst with
    | some ty => exact h.inst ty rfl
    | none =>
      cases inst' with
      | some ty => exact (h'.inst ty rfl).symm
      | none => rfl
  rw [eq]

end VarInfo.Grows

theorem VarInfo.grows_addBound (side : Side) (ty : Ty)
    (info : VarInfo Ty) : info.Grows (info.addBound side ty) := by
  cases side with
  | lower =>
    refine ⟨rfl, rfl, rfl, ?_, ?_, fun inst h => ?_⟩ <;>
      simp only [addBound, Constraint.addLo] <;> split <;> simp_all
  | upper =>
    refine ⟨rfl, rfl, rfl, ?_, ?_, fun inst h => ?_⟩ <;>
      simp only [addBound, Constraint.addHi] <;> split <;> simp_all

theorem VarInfo.inst_addBound (side : Side) (ty : Ty) (info : VarInfo Ty) :
    (info.addBound side ty).constraint.inst = info.constraint.inst := by
  cases side with
  | lower =>
    simp only [addBound, Constraint.addLo]
    split <;> rfl
  | upper =>
    simp only [addBound, Constraint.addHi]
    split <;> rfl

theorem VarInfo.grows_of_addsBound {f : VarInfo Ty → VarInfo Ty}
    (hf : AddsBound f) (info : VarInfo Ty) : info.Grows (f info) := by
  cases hf with
  | bound side ty => exact info.grows_addBound side ty
  | keep => exact .refl info

/-- Instantiating a variable that was open adds to what was known when it was. -/
theorem VarInfo.Grows.setInst {a b : VarInfo Ty} (h : a.Grows b) (hopen : a.constraint.inst = none)
    (ty : Ty) : a.Grows { b with constraint := b.constraint.setInst ty } :=
  ⟨h.origin, h.level, h.suspended, h.lo, h.hi, fun _ h' => by simp [hopen] at h'⟩

/-- As `Grows`, but for the type that a variable is instantiated to. -/
structure VarInfo.Fills {τ : Type} (a b : VarInfo τ) : Prop where
  lo : a.constraint.lo <+: b.constraint.lo
  hi : a.constraint.hi <+: b.constraint.hi
  inst : a.constraint.inst.isSome = true → b.constraint.inst.isSome = true

theorem VarInfo.Grows.fills {τ : Type} {a b : VarInfo τ} (h : a.Grows b) : a.Fills b := by
  refine ⟨h.lo, h.hi, fun hinst => ?_⟩
  obtain ⟨ty, hty⟩ := Option.isSome_iff_exists.1 hinst
  rw [h.inst ty hty]
  rfl

namespace UndoLog

variable {τ : Type} {u v w : VarLog τ}

/-- At least as much is known of each variable, and of no fewer variables. -/
def Grows (v w : VarLog τ) : Prop := ∀ (i : Nat) a, v.vars[i]? = some a →
    ∃ b, w.vars[i]? = some b ∧ a.Grows b

theorem Grows.of_vars_eq (h : w.vars = v.vars) : v.Grows w := fun _ a ha => ⟨a, h ▸ ha, .refl a⟩

theorem Grows.trans (h : u.Grows v) (h' : v.Grows w) : u.Grows w := by
  intro i a ha
  obtain ⟨b, hb, hab⟩ := h i a ha
  obtain ⟨c, hc, hbc⟩ := h' i b hb
  exact ⟨c, hc, hab.trans hbc⟩

theorem Grows.size_le (h : v.Grows w) : v.vars.size ≤ w.vars.size := by
  refine Nat.le_of_not_lt fun lt => ?_
  obtain ⟨b, hb, -⟩ := h w.vars.size v.vars[w.vars.size] (Array.getElem?_eq_getElem lt)
  simp at hb

theorem Grows.antisymm (h : v.Grows w) (h' : w.Grows v) : w.vars = v.vars := by
  apply Array.ext_getElem?
  intro i
  cases hv : v.vars[i]? with
  | some a =>
    obtain ⟨b, hb, grows⟩ := h i a hv
    obtain ⟨a', ha', grows'⟩ := h' i b hb
    obtain rfl : a = a' := Option.some.inj (hv.symm.trans ha')
    rw [hb, grows.antisymm grows']
  | none =>
    have := h'.size_le
    rw [Array.getElem?_eq_none_iff] at hv ⊢
    omega

theorem Grows.update (h : u.Grows v) {f : VarInfo τ → VarInfo τ}
    (hf : ∀ a b, u.info? x = some a → a.Grows b → a.Grows (f b)) : u.Grows (v.update x f) := by
  intro i a ha
  obtain ⟨b, hb, grows⟩ := h i a ha
  rw [UndoLog.getElem?_update, hb]
  split
  next same => exact ⟨f b, rfl, hf a b (by rw [UndoLog.info?, same, ha]) grows⟩
  next => exact ⟨b, rfl, grows⟩

theorem grows_fresh (v : VarLog τ) (origin : τ) (level : Nat)
    (c : Constraint τ) : v.Grows (v.fresh origin level c).2 := by
  intro i a ha
  obtain ⟨lt, -⟩ := Array.getElem?_eq_some_iff.1 ha
  refine ⟨a, ?_, .refl a⟩
  rwa [v.vars_fresh, Array.getElem?_push, if_neg (Nat.ne_of_lt lt)]

/-- What the variable is instantiated to. -/
def inst? (l : VarLog τ) (x : VarId) : Option τ := (l.info? x).bind (·.constraint.inst)

/-- The variables and their bounds stay, and those that are instantiated stay so, if perhaps to
another type. -/
def Fills (v w : VarLog τ) : Prop := ∀ (i : Nat) a, v.vars[i]? = some a →
    ∃ b, w.vars[i]? = some b ∧ a.Fills b

theorem Grows.fills (h : v.Grows w) : v.Fills w := by
  intro i a ha
  obtain ⟨b, hb, grows⟩ := h i a ha
  exact ⟨b, hb, grows.fills⟩

theorem Fills.trans (h : u.Fills v) (h' : v.Fills w) : u.Fills w := by
  intro i a ha
  obtain ⟨b, hb, hab⟩ := h i a ha
  obtain ⟨c, hc, hbc⟩ := h' i b hb
  exact ⟨c, hc, hab.lo.trans hbc.lo, hab.hi.trans hbc.hi, fun hinst => hbc.inst (hab.inst hinst)⟩

theorem Fills.contains (h : v.Fills w) (hx : v.contains x = true) : w.contains x = true := by
  simp only [UndoLog.contains, decide_eq_true_eq] at hx ⊢
  obtain ⟨b, hb, -⟩ := h x.val v.vars[x.val] (Array.getElem?_eq_getElem hx)
  exact (Array.getElem?_eq_some_iff.1 hb).1

theorem Fills.isSome_inst? (h : v.Fills w) (hx : (v.inst? x).isSome = true) :
    (w.inst? x).isSome = true := by
  obtain ⟨ty, hty⟩ := Option.isSome_iff_exists.1 hx
  obtain ⟨a, ha, hinst⟩ := Option.bind_eq_some_iff.1 hty
  obtain ⟨b, hb, fills⟩ := h x.val a ha
  obtain ⟨ty', hty'⟩ := Option.isSome_iff_exists.1 (fills.inst (by rw [hinst]; rfl))
  rw [inst?, UndoLog.info?, hb, Option.bind_some, hty']
  rfl

/-- A variable that is open later was open before. -/
theorem Fills.open_of_open (h : v.Fills w) (hx : w.inst? x = none) : v.inst? x = none := by
  cases hv : v.inst? x with
  | none => rfl
  | some ty =>
    have := h.isSome_inst? (x := x) (by rw [hv]; rfl)
    rw [hx] at this
    cases this

end UndoLog

namespace CheckM

variable {α β : Type}

/-- What a rule does to the variables: it adds to them, and within a snapshot this can be taken
back. -/
structure Adds (s s' : CheckState) : Prop where
  undoes : Undoes s s'
  grows : s.vars.Grows s'.vars

theorem Adds.of_vars_eq {s' : CheckState} (h : s'.vars = s.vars) : Adds s s' :=
  ⟨.of_vars_eq h, .of_vars_eq (h ▸ rfl)⟩

theorem Adds.trans {s1 s2 s3 : CheckState} (h : Adds s1 s2) (h' : Adds s2 s3) : Adds s1 s3 :=
  ⟨h.undoes.trans h'.undoes, h.grows.trans h'.grows⟩

theorem Keeps.undoes {x : CheckM α} (hx : Keeps Adds x) : Keeps Undoes x := fun s => (hx s).undoes

theorem adds_lockstep : Lockstep fun x _ => Keeps Adds x where
  toSequenced := Keeps.sequenced (fun _ => .of_vars_eq rfl) Adds.trans
  exhausted s := .of_vars_eq rfl
  onTable {_ x} _ s := .of_vars_eq (after_onTable_vars x s)
  anyTable x s := .of_vars_eq (after_onTable_vars x s)
  readVars _ := .of_vars_eq rfl
  addBound v f hf s := by
    refine ⟨undoes_lockstep.addBound v hf s, ?_⟩
    exact (UndoLog.Grows.of_vars_eq rfl).update fun a b _ grows =>
      grows.trans (b.grows_of_addsBound hf)
  freshVar origin c s :=
    ⟨undoes_lockstep.freshVar origin c s, s.vars.grows_fresh origin s.skolems.depth c⟩
  atDeeperLevel {_ x _} hx s := by
    have run := hx s.skolems.enter.2.depth { s with skolems := s.skolems.enter.2 }
    rw [after_atDeeperLevel]
    cases s.skolems.enter.1 <;> exact ⟨run.undoes, run.grows⟩
  speculate hx s := .of_vars_eq (by rw [after_speculate]; exact undone_vars hx.undoes s)

theorem probe_adds {x : CheckM Bool} (hx : Keeps Adds x) : Keeps Adds (probe x) := by
  intro s
  refine ⟨probe_undoes hx.undoes s, ?_⟩
  obtain ⟨s', h, run⟩ | ⟨-, back⟩ := probe_cases hx.undoes s
  · have grows := (hx (opened s)).grows
    rw [after_ok h] at grows
    rw [after_ok run]
    exact grows
  · exact .of_vars_eq (by rw [back])

theorem query_adds {x : CheckM Bool} (hx : Keeps Adds x)
    (enter : Guard.Entering) (op : Relation) (depth : Option Nat) :
    Keeps Adds (reported op depth (guarded enter x)) := by
  intro s
  refine ⟨query_undoes hx.undoes enter op depth s, ?_⟩
  exact query_vars (R := fun _ v w => v.Grows w) (fun _ => .of_vars_eq rfl)
    (fun s => (probe_adds hx s).grows) enter op depth s

/-! ## Instantiating a variable -/

/-- What was added since `s0` stays added. The second run is there for the walk over the rules
only. -/
def Since {α : Type} (s0 : CheckState) (x _y : CheckM α) : Prop :=
    Keeps (fun s s' => Adds s0 s → Adds s0 s') x

theorem Keeps.since {x : CheckM α} (hx : Keeps Adds x) (s0 : CheckState) : Since s0 x x :=
  fun s h => h.trans (hx s)

theorem Since.grows {x : CheckM α} (hx : Since s x x) : s.vars.Grows (x.after s).vars :=
  (hx s (.of_vars_eq rfl)).grows

theorem grows_after_bind {v : VarLog Ty} {x : CheckM α}
    {f : α → CheckM β} {s1 : CheckState} {a : α} (h : x s = .ok a s1)
    (hf : v.Grows ((f a).after s1).vars) : v.Grows ((x >>= f).after s).vars := by
  rw [after, bind_ok h]
  exact hf

theorem since_sequenced (s0 : CheckState) : Sequenced CheckM (Since s0) :=
  Keeps.sequenced (fun _ h => h) fun h h' h0 => h' (h h0)

theorem since_reading (s0 : CheckState) : Reading (Since s0) where
  toSequenced := since_sequenced s0
  exhausted := Keeps.since adds_lockstep.exhausted s0
  onTable _ := (adds_lockstep.anyTable _).since s0
  readVars := Keeps.since adds_lockstep.readVars s0

/-- A variable that was open in `s0` may be instantiated, whatever has been asked since. -/
theorem setInst_since {s0 : CheckState} {v : VarId}
    (hopen : (s0.vars.info? v).bind (·.constraint.inst) = none)
    (ty : Ty) : Since s0 (updateVar v (.setInst ty))
      (updateVar v (.setInst ty)) := by
  intro s h
  refine ⟨h.undoes.trans fun hs => UndoLog.extends_update hs v _, h.grows.update fun a b ha grows =>
    ?_⟩
  rw [ha] at hopen
  exact grows.setInst hopen ty

/-- A rule that begins by looking at a variable, measured from where it looked. -/
theorem adds_of_varInfo? {v : VarId} {f : Option (VarInfo Ty) → CheckM α}
    (hf : ∀ s, Since s (f (s.vars.info? v)) (f (s.vars.info? v))) : Keeps Adds (varInfo? v >>= f) :=
  fun s => hf s s (.of_vars_eq rfl)

section Rules

variable {cfg : Config} {q : Queries} (hq : Queries.InStep (fun x _ => Keeps Adds x) q q)
include hq

theorem registerEquality_adds (v : VarId) (ty : Ty)
    (onLeft : Bool) : Keeps Adds (registerEquality q v ty onLeft) := by
  refine adds_of_varInfo? fun s => ?_
  have h := since_sequenced s
  cases hinfo : s.vars.info? v with
  | none => exact h.pure _
  | some info =>
    refine ite_rel ((hq.same _ _).since s) ?_
    split
    · exact ite_rel ((hq.same _ _).since s) ((hq.same _ _).since s)
    · rename_i hopen
      refine h.bind (adds_lockstep.readTable.since s) fun t => ite_rel (h.pure _) ?_
      refine h.bind (h.allM (fun _ => (hq.sub _ _ _).since s) _) fun _ => ite_rel (h.pure _) ?_
      refine h.bind (h.allM (fun _ => (hq.sub _ _ _).since s) _) fun _ => ite_rel (h.pure _) ?_
      exact h.bind (setInst_since (by rw [hinfo]; exact hopen) ty) fun _ => h.pure _

theorem solveOne_adds (g : SolveGroup) (depth : Depth) (n : Nat) (progress : List Progress)
    (u : Unknown × Nat) : Keeps Adds (solveOne cfg q g depth n progress u).run := by
  intro s
  have asked : Queries.InStep (Since s) q q := ⟨fun l r d =>
    (hq.sub l r d).since s, fun l r => (hq.same l r).since s⟩
  refine (since_reading s).solveOne_of_look asked (K := fun _ => True) (O := fun v =>
    (s.vars.info? v).bind (·.constraint.inst) = none) (fun {v f _} hf s' hs => ?_) (fun v _ f hf =>
    Keeps.since (adds_lockstep.addBound v hf) s) (fun v _ hopen => setInst_since hopen)
    (fun _ _ => trivial) depth n progress u trivial s (.of_vars_eq rfl)
  exact hf (s'.vars.info? v) hs.grows.fills.open_of_open s' hs

end Rules

end CheckM

namespace Config

open CheckM

/-- Queries add to the variables and never take anything from them. -/
theorem queriesUpTo_adds (cfg : Config) (n : Nat) :
    Queries.InStep (fun x _ => Keeps Adds x) (cfg.queriesUpTo n) (cfg.queriesUpTo n) := by
  induction n with
  | zero =>
    have none : Keeps Adds (pure false : CheckM Bool) := fun _ => .of_vars_eq rfl
    exact ⟨fun l r d => query_adds none _ _ _, fun l r => query_adds none _ _ _⟩
  | succ n ih =>
    exact ⟨fun l r d => query_adds (adds_lockstep.subStep ih (solveOne_adds ih) l r d) _ _ _,
      fun l r => query_adds (adds_lockstep.sameStep ih (registerEquality_adds ih) l r) _ _ _⟩

end Config

end Conformance

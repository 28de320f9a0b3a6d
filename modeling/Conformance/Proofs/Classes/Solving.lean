import Conformance.Proofs.Classes.Registering
import Conformance.Proofs.SolveLoop

/-! # Solving for variables that class types bound

Variables stand for quantifiers whose declared bounds are class types, and class types were
registered as bounds of them. Solving from below gives each variable a class type, with
intersections in its arguments at most, and checks it against all its bounds. So what a successful
run gives meets the bounds that were registered. -/

namespace Conformance

variable {α β : Type} {ps : List SymbolId} {args : List Ty}
  {vs : List VarId} {fuel : Nat} {c q' : SymbolId} {bound : Ty}

open SymbolTable SymM CheckM SolveM SolveGroup

variable {I : CheckState → Prop}

namespace SymbolTable

variable {t t' : SymbolTable} {q : SymbolId}

/-- A type parameter or an abstract type with the default bounds or bounded by class types. -/
structure IsQuantifier (t : SymbolTable) (q : SymbolId) : Prop where
  kind : t.kind q = .typeParam ∨ t.kind q = .abstractType
  info : t.info q = .noType ∨ ∃ lo hi, t.info q = .bounds lo hi ∧ t.ClassType lo ∧ t.ClassType hi

namespace IsQuantifier

variable (h : t.IsQuantifier q)
include h

theorem not_class : (t.get q).isClass = false := by
  rw [SymbolRecord.isClass]
  obtain kind | kind := h.kind <;> rw [show (t.get q).kind = _ from kind] <;> rfl

theorem not_alias : (t.get q).isAliasType = false := by
  rw [SymbolRecord.isAliasType]
  obtain kind | kind := h.kind <;> rw [show (t.get q).kind = _ from kind] <;> rfl

theorem ne_class (hc : t.IsPlainClass c) : c ≠ q := by
  rintro rfl
  have := h.not_class
  rw [hc.isClass] at this
  cases this

theorem ne_package (hc : t.IsPackage c) : c ≠ q := by
  rintro rfl
  obtain kind | kind := h.kind <;> rw [hc.kind] at kind <;> cases kind

variable (ht : t.Rooted)
include ht

theorem entered : q.val < t.size := by
  refine ht.lt_size ?_
  obtain kind | kind := h.kind <;> rw [kind] <;> nofun

theorem bounds_closed : t.ClassType (t.boundsOf q).1 ∧ t.ClassType (t.boundsOf q).2 := by
  unfold boundsOf
  obtain info | ⟨lo, hi, info, closed⟩ := h.info <;> rw [info]
  · exact ⟨ht.nothingType, ht.anyType⟩
  · exact closed

end IsQuantifier

theorem IsQuantifier.copy (agrees : t.Agrees t') (h : t.IsQuantifier q)
    (kind : t'.kind q' = t.kind q) (info : t'.info q' = t.info q) : t'.IsQuantifier q' := by
  refine ⟨kind ▸ h.kind, ?_⟩
  rw [info]
  obtain info | ⟨lo, hi, info, closed⟩ := h.info
  · exact .inl info
  · exact .inr ⟨lo, hi, info, agrees.classTerm closed.1, agrees.classTerm closed.2⟩

theorem boundsOf_eq (same : t'.info q' = t.info q) : t'.boundsOf q' = t.boundsOf q := by
  rw [boundsOf, same, boundsOf]

theorem Hosts.boundsOf_eq (h : t.Hosts t') (hq : q.val < t.size) : t'.boundsOf q = t.boundsOf q :=
  SymbolTable.boundsOf_eq (congrArg SymbolRecord.info (h.get_eq hq))

theorem typeConstructor_eq (t : SymbolTable) (q : SymbolId) : ∃ pre, t.typeConstructor
    q = .ref pre q [] ∧ (pre = .noPrefix ∨ ∃ owner, pre = .this owner) := by
  refine ⟨_, rfl, ?_⟩
  unfold prefixOf prefixFor
  split
  · exact .inl rfl
  · split
    · exact .inr ⟨_, rfl⟩
    · exact .inl rfl

theorem ClassType.term {ty : Ty} (h : t.ClassType ty) : t.ClassTerm ps ty := by
  induction h with
  | param mem => cases mem
  | app package plain arity _ ih => exact .app package plain arity ih

end SymbolTable

variable {t : SymbolTable} {n : Nat} {cfg : Config} {q : Queries} {ty : Ty}

/-! ## Types without variables -/

theorem dealias_yields {ok : Prop} (h : t.ClassType ty) :
    Yields t ok (dealias fuel ty) (· = ty) := by
  obtain ⟨pkg, c, as, rfl⟩ := h.shape
  show Yields t _ (View.dealias fuel _ (127 + 1) _) _
  unfold View.dealias
  refine (record_yields c).bind fun r hr => ?_
  rw [hr, h.isPlainClass.not_alias]
  exact .pure rfl

/-- There is nothing to instantiate in class types and their intersections. -/
theorem instantiateWith_joined {inst? : VarId → Option Ty} {expanding : List VarId}
    (h : t.Joined ty) : Yields t False (instantiateWith inst? fuel expanding ty) (· = ty) := by
  induction fuel generalizing ty with
  | zero => exact .fail id
  | succ fuel ih =>
    have same : ∀ {tys : List Ty}, (∀ ty ∈ tys, t.Joined ty) →
        Yields t False (tys.mapM (instantiateWith inst? fuel expanding)) (· = tys) := fun {tys} h =>
      (Attains.mapM_eq (g := id) fun ty hty => ih (h ty hty)).imp fun _ eq =>
        eq.trans (List.map_id _)
    cases h with
    | @app pkg c args _ terms =>
      have outer : Yields t False (instantiateWith inst? fuel expanding (.this pkg))
        (· = .this pkg) := by
        cases fuel with
        | zero => exact .fail id
        | succ fuel => exact .pure rfl
      refine outer.bind fun pre hpre => (same terms).bind fun args' hargs' => .pure ?_
      rw [if_pos ⟨hpre, hargs'⟩]
    | meet terms =>
      refine (same terms).bind fun parents' hparents' =>
        .bind (.pure rfl) fun infos hinfos => .bind .get fun t' _ => ?_
      subst hinfos
      rw [if_neg (by simp), if_pos hparents']
      exact .pure rfl

section Finds

variable (ht : t.Rooted)
include ht

theorem instantiate_finds (h : t.Joined ty) : Finds t n False (instantiate cfg ty) (· = ty) :=
    fun s hs room =>
  Finds.onTable (P := (· = ty)) (.of_yields ht fun _ ht' =>
    instantiateWith_joined ((ht'.agrees ht).joined h)) s hs room

theorem substTypes_finds (h : t.ClassType ty)
    (arity : args.length = ps.length) : SymM.Finds t False (substTypes fuel ps args ty) (· = ty) :=
  .of_yields ht fun t' ht' => by
    have closed : t'.ClassType ty := (ht'.agrees ht).classTerm h
    exact ((substTypes_term closed.term.isTerm arity fuel).imp fun _ eq =>
      eq.trans closed.inst_eq).of_ok False.elim

end Finds

/-! ## The group -/

/-- The types of a group are quantifiers, and it is solved from below. -/
def SolveGroup.Quantified (g : SolveGroup) (t : SymbolTable) : Prop :=
  ∀ u ∈ g.unknowns, t.IsQuantifier u.tparam ∧ g.upwards u = false

/-- What is known of a variable that is solved for. -/
structure CheckM.Bounded (t : SymbolTable) (info : VarInfo Ty) : Prop extends Ranged t info where
  inst : ∀ ty, info.constraint.inst = some ty → t.Joined ty

/-- The state of a run that solves for the group from `s0` on. -/
structure SolveGroup.Solving (g : SolveGroup) (t : SymbolTable)
    (n : Nat) (s0 s : CheckState) : Prop where
  hosts : t.Hosts s.table
  room : s.guard.maxDepth ≤ s.guard.depth + n
  grows : s0.vars.Grows s.vars
  vars : ∀ u ∈ g.unknowns, ∃ info, s.vars.info? u.var = some info ∧ Bounded t info

variable {g : SolveGroup} {s0 : CheckState}

namespace SolveGroup.Solving

variable {s s' : CheckState} {u : Unknown}

theorem serve (h : g.Solving t n s0 s) (serves : Stays t.Hosts s s') : g.Solving t n s0 s' where
  hosts := serves.table
  room := by rw [serves.depth, serves.maxDepth]; exact h.room
  grows := h.grows.trans (.of_vars_eq serves.vars.vars)
  vars := by simpa only [UndoLog.info?, serves.vars.vars] using h.vars

theorem update (h : g.Solving t n s0 s) {f : VarInfo Ty → VarInfo Ty}
    (bounded : ∀ info, Bounded t info → Bounded t (f info))
    (grows : ∀ a b, s0.vars.info? u.var = some a → a.Grows b → a.Grows (f b)) :
    g.Solving t n s0 { s with vars := s.vars.update u.var f } := by
  refine ⟨h.hosts, h.room, h.grows.update grows, fun u' hu' => ?_⟩
  obtain ⟨info, hinfo, hbounded⟩ := h.vars u' hu'
  by_cases same : u.var = u'.var
  · rw [← same] at hinfo ⊢
    exact ⟨f info, UndoLog.info?_update_self hinfo f, bounded info hbounded⟩
  · exact ⟨info, (s.vars.info?_update_of_ne same f).trans hinfo, hbounded⟩

end SolveGroup.Solving

/-- Where a run ends with an error the classes are still there. -/
def SolveError.Keeps (t : SymbolTable) (_ : SolveError Ty) (s : CheckState) : Prop :=
    t.Hosts s.table

/-- What holds of states with at most `n` levels left, whatever is asked for class types. -/
structure SolveM.Served (t : SymbolTable) (n : Nat) (I : CheckState → Prop) : Prop where
  hosts : ∀ s, I s → t.Hosts s.table
  room : ∀ s, I s → s.guard.maxDepth ≤ s.guard.depth + n
  serve : ∀ s s', I s → Stays t.Hosts s s' → I s'

theorem SolveGroup.solving_served : Served t n (g.Solving t n s0) :=
  ⟨fun _ h => h.hosts, fun _ h => h.room, fun _ _ h => h.serve⟩

theorem SolveM.Delivers.finds (hI : Served t n I) {x : CheckM α}
    {P : α → Prop} {f : α → SolveM β} {Post : β → CheckState → Prop}
    (hx : Finds t n False x P) (hf : ∀ a, P a → Delivers I (f a) Post (SolveError.Keeps t)) :
    Delivers I (liftM x >>= f) Post (SolveError.Keeps t) := by
  have first : Delivers I (liftM x : SolveM α) (fun a s => P a ∧ I s) (SolveError.Keeps t) := by
    refine .lift fun s hs a s' run => ?_
    obtain ⟨serves, hP⟩ := hx.of_run (hI.hosts s hs) (hI.room s hs) run
    exact ⟨hP, hI.serve s s' hs serves⟩
  exact first.next hf

section Group

variable (ht : t.Rooted) (hq : q.Serve t n False) (hg : g.Quantified t)
  {u : Unknown} (hu : u ∈ g.unknowns)
include ht hg hu

theorem dependsOn_finds (hq : q.Serve t n False) {other : Unknown}
    (hother : other ∈ g.unknowns) {t' : SymbolTable} : Finds t
    n False (dependsOn q false (t'.typeConstructor u.tparam) bound other.tparam) fun _ => True := by
  refine Finds.readTable.bind fun t'' ht'' => .ite (fun _ => .pure trivial) fun _ => ?_
  have bounds := ht''.boundsOf_eq ((hg other hother).1.entered ht)
  obtain ⟨pre, eq, outer⟩ := t'.typeConstructor_eq u.tparam
  rw [eq, show boundAgainst t'' false other.tparam =
    (t.boundsOf other.tparam).2 from congrArg Prod.snd bounds]
  have quantifier := (hg u hu).1
  exact (hq.same _ _ ((hg other hother).1.bounds_closed ht).2 (.param
    outer (quantifier.entered ht) quantifier.not_alias quantifier.not_class)).imp fun _ _ => trivial

/-- No variable of the group is declared a bound of another one. -/
theorem facingBounds_finds {side : Side} : Finds t
    n False (g.unknowns.zipIdx.forM fun (other, _) => do
      if other.tparam == u.tparam then return
      let facing := boundAgainst (← CheckM.readTable) false other.tparam
      if (← typeSymbol cfg.fuel (← dealias cfg.fuel facing)) == u.tparam then
        CheckM.updateVar u.var (VarInfo.addBound side (.var other.var))) fun _ => True := by
  refine .forM fun (other, j) mem => .ite (fun _ => .pure trivial) fun _ =>
    Finds.readTable.bind fun t' ht' => ?_
  have hother := List.fst_mem_of_mem_zipIdx mem
  have closed := ((hg other hother).1.bounds_closed ht).2
  rw [show boundAgainst t' false other.tparam = (t.boundsOf other.tparam).2 from
    congrArg Prod.snd (ht'.boundsOf_eq ((hg other hother).1.entered ht))]
  obtain ⟨pkg, c, as, eq⟩ := closed.shape
  rw [eq] at closed ⊢
  refine (Finds.onTable (.of_yields ht fun _ ht' =>
    dealias_yields ((ht'.agrees ht).classTerm closed))).bind fun ty hty => ?_
  subst hty
  refine (Finds.onTable (typeSymbol_finds ht closed.isPlainClass)).bind fun s hs => ?_
  subst hs
  rw [if_neg (by simpa using (hg u hu).1.ne_class closed.isPlainClass)]
  exact .pure trivial

/-- Of the declared bounds the lower one is added, which is a class type. -/
theorem addDeclaredBounds_delivers (hbound : t.ClassType bound) : Delivers (g.Solving t n s0)
    (liftM (addDeclaredBounds cfg g u bound) : SolveM Unit) (fun _ => g.Solving t n s0)
      (SolveError.Keeps t) := by
  obtain ⟨pkg, c, as, rfl⟩ := hbound.shape
  have arity : g.tvars.length = g.tparams.length := by simp [SolveGroup.tvars, SolveGroup.tparams]
  refine .lift fun s hs _ s' run => ?_
  unfold addDeclaredBounds Lanes.addDeclaredBounds at run
  rw [(hg u hu).2] at run
  obtain ⟨instantiated, s1, run1, run⟩ := exists_of_bind run
  obtain ⟨serves, rfl⟩ := (Finds.onTable (substTypes_finds ht hbound arity)).of_run
    hs.hosts hs.room run1
  have hs := hs.serve serves
  obtain ⟨cls, s2, run2, run⟩ := exists_of_bind run
  have found : Finds t n False (onTable (typeSymbol cfg.fuel (.ref (.this pkg) c as))) (· = c) :=
    .onTable (typeSymbol_finds ht hbound.isPlainClass)
  obtain ⟨serves, rfl⟩ := found.of_run hs.hosts hs.room run2
  have hs := hs.serve serves
  obtain ⟨_, s3, run3, run⟩ := exists_of_bind run
  cases run3
  have written := hs.update (u := u) (f := fun info =>
    if cls != Known.nothing && cls != u.tparam then
    info.addBound .lower (.ref (.this pkg) cls as) else
      info) (fun info bounded => ?_) fun a b _ grows => ?_
  · obtain ⟨serves, -⟩ := (facingBounds_finds ht hg hu).of_run written.hosts written.room run
    exact written.serve serves
  · split
    · exact ⟨bounded.toRanged.addBound
        hbound .lower, by simpa [VarInfo.inst_addBound] using bounded.inst⟩
    · exact bounded
  · split
    · exact grows.trans (b.grows_addBound _ _)
    · exact grows

omit ht hg in
theorem look_delivers {f : Option (VarInfo Ty) → SolveM β}
    {Post : β → CheckState → Prop} (h : ∀ info, Bounded t info →
    Delivers (g.Solving t n s0) (f (some info)) Post (SolveError.Keeps t)) :
    Delivers (g.Solving t n s0) (liftM (varInfo? u.var) >>= f) Post (SolveError.Keeps t) := by
  have look : Delivers (g.Solving t n s0) (liftM (varInfo? u.var) : SolveM _) (fun info s =>
      (∃ i, info = some i ∧ Bounded t i) ∧ g.Solving t n s0 s) (SolveError.Keeps t) := by
    refine .lift fun s hs info s' run => ?_
    cases run
    exact ⟨hs.vars u hu, hs⟩
  refine look.next ?_
  rintro _ ⟨info, rfl, bounded⟩
  exact h info bounded

/-- The least upper bound of the lower bounds. -/
theorem chooseInst_joined (hq : q.Serve t n False) (depth : Depth) : Delivers (g.Solving t n s0)
    (chooseInst cfg q g depth u) (fun inst s => t.Joined inst ∧ g.Solving t n s0 s)
      (SolveError.Keeps t) := by
  refine look_delivers hu fun info bounded => ?_
  simp only [(hg u hu).2, Bool.false_eq_true, if_false]
  refine .finds solving_served (lubUpTo_finds ht hq False.elim _ bounded.lo False.elim)
    fun inst hinst =>
    .finds solving_served (instantiate_finds ht hinst.joined) fun inst' eq => ?_
  subst eq
  refine .finds solving_served Finds.readTable fun t' _ =>
    .ite (fun _ => .throw_bind fun s hs => hs.hosts) fun _ => ?_
  exact .pure fun s hs => ⟨hinst.joined, hs⟩

theorem solveOne_solving (hq : q.Serve t n False)
    (free : ∀ u ∈ g.unknowns, s0.vars.inst? u.var = none)
    (depth : Depth) (k : Nat) {progress : List Progress} {i : Nat} : Delivers (g.Solving t n s0)
    (solveOne cfg q g depth k progress (u, i)) (fun _ => g.Solving t n s0)
      (SolveError.Keeps t) := by
  induction k generalizing progress u i with
  | zero => exact .pure fun _ h => h
  | succ k ih =>
    rw [solveOne_succ]
    refine .ite (fun _ => .pure fun _ h => h) fun _ => look_delivers hu fun info _ => ?_
    refine .ite (fun _ => .pure fun _ h => h) fun _ =>
      .finds solving_served Finds.readTable fun t' ht' => ?_
    rw [(hg u hu).2]
    have quantifier := (hg u hu).1
    have bound : t.ClassType (boundTowards t' false u.tparam) := by
      rw [show boundTowards t' false u.tparam = (t.boundsOf u.tparam).1 from
        congrArg Prod.fst (ht'.boundsOf_eq (quantifier.entered ht))]
      exact (quantifier.bounds_closed ht).1
    -- those that this one depends on
    refine Delivers.bind (show Delivers (g.Solving t n s0) _ (fun _ => g.Solving t n s0) _ from ?_)
      fun pc => ?_
    · refine .foldlM (fun _ _ => g.Solving t n s0) _ _ fun seen entry rest pc split => ?_
      obtain ⟨other, j⟩ := entry
      obtain ⟨progress, cyclic⟩ := pc
      have mem : other ∈ g.unknowns := by
        have : (other, j) ∈ g.unknowns.zipIdx := split ▸
          List.mem_append_right seen List.mem_cons_self
        exact List.mem_of_getElem? (List.mem_zipIdx_iff_getElem?.1 this)
      refine .ite (fun _ => .pure fun _ h => h) fun _ =>
        .finds solving_served (dependsOn_finds ht hg hu hq mem) fun b _ => ?_
      exact .ite (fun _ => .pure fun _ h => h) fun _ => (ih mem).bind fun _ => .pure fun _ h => h
    -- the variable itself
    have chosen : Delivers (g.Solving t n s0) (do
          let inst ← chooseInst cfg q g depth u
          updateVar u.var (.setInst inst)
          return pc.1.set i .done : SolveM (List Progress))
            (fun _ => g.Solving t n s0) (SolveError.Keeps t) := by
      refine (chooseInst_joined ht hg hu hq depth).next fun inst joined => ?_
      have write : Delivers (g.Solving t n s0) (liftM (updateVar u.var (.setInst inst)) : SolveM
          Unit) (fun _ => g.Solving t n s0) (SolveError.Keeps t) := by
        refine .lift fun s hs a s' run => ?_
        cases run
        refine hs.update (fun info bounded => ⟨⟨bounded.lo, bounded.hi⟩, fun ty eq => ?_⟩)
          fun a b ha grows => ?_
        · cases eq
          exact joined
        · have hopen := free u hu
          rw [UndoLog.inst?, ha] at hopen
          exact grows.setInst hopen inst
      exact write.bind fun _ => .pure fun _ h => h
    exact .ite (fun _ => (addDeclaredBounds_delivers ht hg hu bound).bind fun _ => chosen) fun _ =>
      chosen

end Group

/-! ## The solution -/

/-- The variable is instantiated to `a`, within its bounds. -/
structure CheckM.Solves (t : SymbolTable) (info : VarInfo Ty) (a : Ty) : Prop where
  inst : info.constraint.inst = some a
  joined : t.Joined a
  lo : ∀ b ∈ info.constraint.lo, t.Accepts b a
  hi : ∀ b ∈ info.constraint.hi, t.Accepts a b

/-- A map with an invariant, element by element. -/
theorem SolveM.Delivers.forall₂ {Err : SolveError Ty → CheckState → Prop} {f : α → SolveM β}
    {P : α → β → Prop} {xs : List α} (h : ∀ x ∈ xs, Delivers I (f x) (fun y s => P x y ∧ I s) Err) :
    Delivers I (xs.mapM f) (fun ys s => List.Forall₂ P xs ys ∧ I s) Err := by
  induction xs with
  | nil => exact .pure fun _ h => ⟨.nil, h⟩
  | cons x xs ih =>
    rw [List.mapM_cons]
    rw [List.forall_mem_cons] at h
    refine h.1.next fun y hy => ?_
    exact (ih h.2).bind fun ys => .pure fun _ h => ⟨.cons hy h.1, h.2⟩

section Check

variable (ht : t.Rooted) (hq : q.Serve t n False)
include ht hq

omit hq in
theorem instantiateAll_delivers (hI : Served t n I) {tys : List Ty} (h : ∀ ty ∈ tys, t.Joined ty) :
    Delivers I (tys.mapM fun ty => (instantiate cfg ty : CheckM Ty) : SolveM (List Ty))
    (fun r s => r = tys ∧ I s)
      (SolveError.Keeps t) := by
  refine .imp (.forall₂ (P := Eq) fun ty hty => ?_) (fun _ h => h) fun r s h =>
    ⟨(List.forall₂_eq_eq_eq ▸ h.1 : tys = r).symm, h.2⟩
  refine .lift fun s hs a s' run => ?_
  obtain ⟨serves, eq⟩ := (instantiate_finds ht (h ty hty)).of_run (hI.hosts s hs) (hI.room s hs) run
  exact ⟨eq.symm, hI.serve s s' hs serves⟩

/-- An instantiation is checked against all its bounds, and no variable is touched. -/
theorem checkedInst_solves (hI : Served t n I) {v : VarId} {info : VarInfo Ty}
    (look : ∀ s, I s → s.vars.info? v = some info) (bounded : Bounded t info) :
    Delivers I (checkedInst cfg q v) (fun a s => Solves t info a ∧ I s) (SolveError.Keeps t) := by
  have seen : Delivers I (liftM (varInfo? v) : SolveM _)
    (fun r s => r = some info ∧ I s) (SolveError.Keeps t) := by
    refine .lift fun s hs r s' run => ?_
    cases run
    exact ⟨look s hs, hs⟩
  refine seen.next fun r eq => ?_
  subst eq
  cases hinst : info.constraint.inst with
  | none =>
    simp only [hinst]
    exact .throw hI.hosts
  | some inst =>
    simp only [hinst]
    have joined := bounded.inst inst hinst
    refine .finds hI (instantiate_finds ht joined) fun inst' eq => ?_
    subst eq
    refine (instantiateAll_delivers ht hI fun b hb => (bounded.lo b hb).joined).next fun los eq =>
      ?_
    subst eq
    refine (instantiateAll_delivers ht hI fun b hb => (bounded.hi b hb).joined).next fun his eq =>
      ?_
    subst eq
    refine .finds hI (.allM fun b hb => hq.sub b inst' (bounded.lo b hb).joined joined)
      fun below hbelow => ?_
    refine .ite (fun _ => .throw_bind hI.hosts) fun yes => ?_
    refine .finds hI (.allM fun b hb => hq.sub inst' b joined (bounded.hi b hb).joined)
      fun above habove => ?_
    refine .ite (fun _ => .throw_bind hI.hosts) fun yes' =>
      .pure fun s hs => ⟨⟨hinst, joined, ?_, ?_⟩, hs⟩
    · exact hbelow (by simpa using yes)
    · exact habove (by simpa using yes')

/-- The instantiations of a group are checked one after the other. -/
theorem checkedInsts_solve (vars : ∀ v ∈ vs, ∃ u ∈ g.unknowns, u.var = v) :
    Delivers (g.Solving t n s0) (vs.mapM (checkedInst cfg q))
      (fun as s => g.Solving t n s0 s ∧ List.Forall₂ (fun v a =>
        ∃ info, s.vars.info? v = some info ∧ Solves t info a) vs as) (SolveError.Keeps t) := by
  intro s hs
  -- the variables stay what they are at the beginning
  let I (s' : CheckState) : Prop := g.Solving t n s0 s' ∧ s'.vars.vars = s.vars.vars
  have hI : Served t n I :=
    ⟨fun _ h => h.1.hosts, fun _ h => h.1.room, fun _ _ h serves =>
      ⟨h.1.serve serves, serves.vars.vars.trans h.2⟩⟩
  have checked : Delivers I (vs.mapM (checkedInst cfg q)) (fun as s' => List.Forall₂ (fun v a =>
      ∃ info, s.vars.info? v = some info ∧ Solves t info a) vs as ∧ I s') (SolveError.Keeps t) := by
    refine .forall₂ fun v hv => ?_
    obtain ⟨u, hu, rfl⟩ := vars v hv
    obtain ⟨info, hinfo, bounded⟩ := hs.vars u hu
    refine (checkedInst_solves ht hq hI (fun s' h => ?_) bounded).imp (fun _ h => h) fun a s' h =>
      ⟨⟨info, hinfo, h.1⟩, h.2⟩
    rw [UndoLog.info?, h.2]
    exact hinfo
  refine checked.imp (fun _ h => h) (fun as s' h => ⟨h.2.1, ?_⟩) s ⟨hs, rfl⟩
  simpa only [UndoLog.info?, h.2.2] using h.1

/-- Solving from below for quantifiers, where the variables have class types as bounds. -/
theorem solve_solves (depth : Depth) (hosts : t.Hosts s0.table)
    (room : s0.guard.maxDepth ≤ s0.guard.depth + n) (quantifiers : ∀ p ∈ ps, t.IsQuantifier p)
    (vars : ∀ v ∈ vs, ∃ info, s0.vars.info? v = some info ∧
    info.constraint.inst = none ∧ Ranged t info) :
    Delivers (· = s0) (solve cfg q (vs.map .var) ps (ps.map fun _ => .invariant) false depth)
      (fun as s => t.Hosts s.table ∧ s.guard.maxDepth ≤ s.guard.depth + n ∧ s0.vars.Grows s.vars ∧
        List.Forall₂ (fun v a => ∃ info, s.vars.info? v = some info ∧ Solves t info a) vs as)
        (SolveError.Keeps t) := by
  have refused : ∀ s, s = s0 → t.Hosts s.table := by
    rintro s rfl
    exact hosts
  refine .ite (fun _ => .throw_bind refused) fun lengths =>
    .ite (fun _ => .throw_bind refused) fun _ => ?_
  have found : Delivers (· = s0) (ExceptT.mk (return knownVars (← get).vars (vs.map .var)) : SolveM
      (List VarId)) (fun vs' s => vs' = vs ∧ s = s0) (SolveError.Keeps t) := by
    rintro s rfl
    refine ⟨fun vs' s' run => ?_, fun e s' run => ?_⟩ <;>
      obtain ⟨result, rfl⟩ := EStateM.Result.ok.inj run
    · refine ⟨?_, rfl⟩
      obtain ⟨eq, -⟩ := eq_of_knownVars result
      exact (List.map_injective_iff.2 (fun a b h => Ty.var.inj h) eq).symm
    · exact hosts
  refine found.next fun vs' eq => ?_
  subst eq
  let g : SolveGroup := ⟨(vs'.zip (ps.zip (ps.map fun _ => .invariant))).map fun entry =>
    ⟨entry.1, entry.2.1, entry.2.2⟩, false⟩
  have members : ∀ u ∈ g.unknowns, u.var ∈ vs' ∧ u.tparam ∈ ps ∧ u.variance = .invariant := by
    intro u hu
    obtain ⟨⟨v, p, variance⟩, mem, rfl⟩ := List.mem_map.1 hu
    obtain ⟨hv, mem⟩ := List.of_mem_zip mem
    obtain ⟨hp, hvariance⟩ := List.of_mem_zip mem
    obtain ⟨_, -, rfl⟩ := List.mem_map.1 hvariance
    exact ⟨hv, hp, rfl⟩
  have covered : ∀ v ∈ vs', ∃ u ∈ g.unknowns, u.var = v := by
    intro v hv
    have room : vs'.length ≤ (ps.zip (ps.map fun _ => Variance.invariant)).length := by
      simp only [bne_iff_ne, ne_eq, Decidable.not_not, List.length_map] at lengths
      simp [lengths]
    have group : g.unknowns.map (·.var) = vs' := by
      rw [List.map_map]
      exact List.map_fst_zip room
    exact List.mem_map.1 (group ▸ hv)
  have hg : g.Quantified t :=
    fun u hu => ⟨quantifiers _ (members u hu).2.1, by simp [upwards, (members u hu).2.2, g]⟩
  have free : ∀ u ∈ g.unknowns, s0.vars.inst? u.var = none := by
    intro u hu
    obtain ⟨info, hinfo, free, -⟩ := vars u.var (members u hu).1
    rw [UndoLog.inst?, hinfo]
    exact free
  have start : g.Solving t n s0 s0 := by
    refine ⟨hosts, room, .of_vars_eq rfl, fun u hu => ?_⟩
    obtain ⟨info, hinfo, free, ranged⟩ := vars u.var (members u hu).1
    exact ⟨info, hinfo, ranged, fun ty eq => absurd (free.symm.trans eq) (by simp)⟩
  have loop : Delivers (· = s0) (g.unknowns.zipIdx.foldlM (solveOne cfg q g depth g.unknowns.length)
      (g.unknowns.map fun _ => .unsolved)) (fun _ => g.Solving t n s0) (SolveError.Keeps t) := by
    refine .imp (.foldlM (fun _ _ => g.Solving t n s0) _ _ fun seen entry rest progress split =>
      ?_) ?_ fun _ _ h => h
    · obtain ⟨u, i⟩ := entry
      have mem : (u, i) ∈ g.unknowns.zipIdx := split ▸ List.mem_append_right seen List.mem_cons_self
      exact solveOne_solving ht hg (List.mem_of_getElem? (List.mem_zipIdx_iff_getElem?.1 mem))
        hq free depth _
    · rintro s rfl
      exact start
  refine loop.bind fun _ => (checkedInsts_solve ht hq covered).imp (fun _ h => h) fun as s h => ?_
  exact ⟨h.1.hosts, h.1.room, h.1.grows, h.2⟩

end Check

end Conformance

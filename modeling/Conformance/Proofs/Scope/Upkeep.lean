import Conformance.Proofs.Atomicity
import Conformance.Proofs.Scope.Contract

/-! # Contracts of the checker's rules

A store invariant speaks of the table and of the variables. `Upkeep` says what it has to allow: that
the table grows, that variables are added, and that types in scope become bounds. `Instantiating` is
an upkeep that lets such types be instantiations too. A type enters the constraint of a variable
that is not `free` only if the level of the variable admits it. A rule is `Upheld` if from a closed
table and a store with the invariant it ends, with an answer or not, in such a table and store. -/

namespace Conformance

variable {s s' : CheckState} {ty : Ty} {v : VarId}
  {sc : Scope} {J : StoreInv} {G : SymbolTable → Prop} {free : VarId → Prop} {x : CheckM Bool}

/-- Variables are kept, at their levels. -/
def KeepsLevels (vars vars' : Array (VarInfo Ty)) : Prop :=
  ∀ (i : Nat) (info : VarInfo Ty), vars[i]? = some info →
    ∃ info', vars'[i]? = some info' ∧ info'.level = info.level

namespace KeepsLevels

variable {vars vars' vars'' : Array (VarInfo Ty)}

theorem refl (vars : Array (VarInfo Ty)) : KeepsLevels vars vars := fun _ info h => ⟨info, h, rfl⟩

theorem trans (h : KeepsLevels vars vars') (h' : KeepsLevels vars' vars'') :
    KeepsLevels vars vars'' := by
  intro i info hi
  obtain ⟨info', hi', level⟩ := h i info hi
  obtain ⟨info'', hi'', level'⟩ := h' i info' hi'
  exact ⟨info'', hi'', level'.trans level⟩

theorem push (vars : Array (VarInfo Ty)) (info : VarInfo Ty) :
    KeepsLevels vars (vars.push info) := by
  intro i old hi
  have bound : i < vars.size := (Array.getElem?_eq_some_iff.1 hi).1
  exact ⟨old, by rw [Array.getElem?_push, if_neg (Nat.ne_of_lt bound), hi], rfl⟩

theorem set {j : Nat} {old new : VarInfo Ty} (hj : vars[j]? = some old)
    (hlevel : new.level = old.level) : KeepsLevels vars (vars.setIfInBounds j new) := by
  intro i info hi
  have bound : i < vars.size := (Array.getElem?_eq_some_iff.1 hi).1
  rw [Array.getElem?_setIfInBounds]
  by_cases hij : j = i
  · subst hij
    have : info = old := Option.some.inj (hi.symm.trans hj)
    exact ⟨new, by simp [bound], by rw [this, hlevel]⟩
  · exact ⟨info, by rw [if_neg hij, hi], rfl⟩

end KeepsLevels

theorem VarInfo.level_addBound (side : Side) (ty : Ty) (info : VarInfo Ty) :
    (info.addBound side ty).level = info.level := by cases side <;> rfl

abbrev StoreInv := SymbolTable → Array (VarInfo Ty) → Prop

/-- A variable at `level` may be bounded by `ty`: a type that was found relatable in a table before,
or an extreme one. -/
def Admissible (sc : Scope) (J : StoreInv) (t : SymbolTable) (level : Nat) (ty : Ty) : Prop :=
  ty = Known.anyType ∨ ty = Known.nothingType ∨ ∃ t0 vars0, sc.Closed t0 ∧
    J t0 vars0 ∧ sc.In t0.size ty ∧ t0.Extends t0.size t ∧ t0.isRelatable level ty = true

theorem Admissible.imp {J' : StoreInv} {t : SymbolTable}
    {level : Nat} (h : Admissible sc J t level ty)
    (hJ : ∀ t vars, J t vars → J' t vars) : Admissible sc J' t level ty := by
  obtain rfl | rfl | ⟨t0, vars0, ht0, hJ0, rest⟩ := h
  · exact .inl rfl
  · exact .inr (.inl rfl)
  · exact .inr (.inr ⟨t0, vars0, ht0, hJ _ _ hJ0, rest⟩)

/-- What a store invariant has to allow. It may rest on something about the owners of symbols, which
holds of tables as they grow. -/
structure Upkeep (sc : Scope) (free : VarId → Prop)
    (J : StoreInv) (G : SymbolTable → Prop := fun _ => True) : Prop where
  owns : sc.Owns G := by exact fun _ _ _ => trivial
  table {t : SymbolTable} {vars : Array (VarInfo Ty)} : J t vars → G t := by exact fun _ => trivial
  grow {t t' : SymbolTable} {vars : Array (VarInfo Ty)} :
    sc.Closed t → J t vars → t.Extends t.size t' → sc.Closed t' → G t' → J t' vars
  info {t : SymbolTable} {vars : Array (VarInfo Ty)} {v : VarId}
    {i : VarInfo Ty} : J t vars → sc.In t.size v → vars[v.val]? = some i → sc.In t.size i
  bound {t : SymbolTable} {vars : Array (VarInfo Ty)} {v : VarId} {i : VarInfo Ty} {ty : Ty}
    (side : Side) : sc.Closed t → J t vars → sc.In t.size v → vars[v.val]? = some i → sc.In t.size
    ty → free v ∨ Admissible sc J t i.level ty → J t (vars.setIfInBounds v.val (i.addBound side ty))
  fresh {t : SymbolTable} {vars : Array (VarInfo Ty)}
    {origin : Ty} (level : Nat) : sc.Closed t → J t vars → sc.In t.size origin →
    J t (vars.push { origin, level }) ∧ sc.In t.size (⟨vars.size⟩ : VarId) ∧ free ⟨vars.size⟩

/-- A store invariant that lets variables be instantiated. -/
structure Instantiating (sc : Scope) (free : VarId → Prop)
    (J : StoreInv) (G : SymbolTable → Prop := fun _ => True) : Prop extends Upkeep sc free J G where
  inst {t : SymbolTable} {vars : Array (VarInfo Ty)} {v : VarId} {i : VarInfo Ty} {ty : Ty} :
    sc.Closed t → J t vars → sc.In t.size v → vars[v.val]? = some i → sc.In t.size ty →
    free v ∨ Admissible sc J t i.level ty →
    J t (vars.setIfInBounds v.val { i with constraint := i.constraint.setInst ty })

/-- The end of a step that keeps the table closed and the store invariant. -/
structure Onward (sc : Scope) (J : StoreInv) (s s' : CheckState) : Prop where
  closed : sc.Closed s'.table
  grown : s.table.Extends s.table.size s'.table
  levels : KeepsLevels s.vars.vars s'.vars.vars
  holds : J s'.table s'.vars.vars

/-- The end of a step that keeps the table closed and `G`, whatever it does to the variables. -/
def Builds (sc : Scope) (s s' : CheckState) (G : SymbolTable → Prop := fun _ => True) : Prop :=
  sc.Closed s'.table ∧ s.table.Extends s.table.size s'.table ∧ G s'.table

theorem Onward.builds (h : Onward sc J s s')
    (table : ∀ {t vars}, J t vars → G t) : Builds sc s s' G := ⟨h.closed, h.grown, table h.holds⟩

/-- A run that began in `s` ended so. -/
def Ends (sc : Scope) (J : StoreInv) (s : CheckState) {α : Type} (Q : Nat → α → Prop) :
    EStateM.Result Failure CheckState α → Prop
  | .ok a s' => Onward sc J s s' ∧ Q s'.table.size a
  | .error _ s' => Onward sc J s s'

/-- From a closed table of size `n` at least and a store with the invariant, `x` keeps both, writes
no record that is there, and answers, if it does, so that `Q` holds at the size that the table has
then. -/
def Upheld (sc : Scope) (J : StoreInv) (n : Nat) {α : Type}
    (x : CheckM α) (Q : Nat → α → Prop) : Prop :=
  ∀ s, sc.Closed s.table → n ≤ s.table.size → J s.table s.vars.vars → Ends sc J s Q (x s)

/-- The body of a transaction that began in `s` ended so: with the invariant if it answered `true`,
and with a closed table in any case. -/
def Commits (sc : Scope) (J : StoreInv) (s : CheckState)
    (r : EStateM.Result Failure CheckState Bool) (G : SymbolTable → Prop := fun _ => True) : Prop :=
  match r with
  | .ok true s' => Onward sc J s s'
  | .ok false s' | .error _ s' => Builds sc s s' G

/-- What is asked of the body of a transaction. -/
def Contained (sc : Scope) (J : StoreInv) (n : Nat)
    (x : CheckM Bool) (G : SymbolTable → Prop := fun _ => True) : Prop :=
  ∀ s, sc.Closed s.table → n ≤ s.table.size → J s.table s.vars.vars → Commits sc J s (x s) G

theorem Upheld.contained (hu : Upkeep sc free J G)
    {n : Nat} {Q : Nat → Bool → Prop} (hx : Upheld sc J n x Q) : Contained sc J n x G := by
  intro s ht hn hJ
  have run := hx s ht hn hJ
  generalize x s = r at run ⊢
  cases r with
  | ok b s' =>
    cases b with
    | true => exact run.1
    | false => exact run.1.builds hu.table
  | error e s' => exact run.builds hu.table

theorem Ends.imp {J' : StoreInv} {s0 : CheckState}
    {α : Type} {P Q : Nat → α → Prop} {r : EStateM.Result Failure CheckState α}
    (h : Ends sc J s P r) (hs : ∀ {s'}, Onward sc J s s' → Onward sc J' s0 s')
    (hQ : ∀ {s' a}, Onward sc J s s' → P s'.table.size a → Q s'.table.size a) :
    Ends sc J' s0 Q r := by
  cases r with
  | ok a s' => exact ⟨hs h.1, hQ h.1 h.2⟩
  | error e s' => exact hs h

theorem Onward.trans {s1 s2 s3 : CheckState} (h : Onward sc J s1 s2)
    (h' : Onward sc J s2 s3) : Onward sc J s1 s3 :=
  ⟨h'.closed, h.grown.next h'.grown, h.levels.trans h'.levels, h'.holds⟩

theorem Onward.forget {K : StoreInv}
    (h : Onward sc (fun t vars => J t vars ∧ K t vars) s s') : Onward sc J s s' :=
  ⟨h.closed, h.grown, h.levels, h.holds.1⟩

namespace Upheld

variable {sc : Scope} {J K : StoreInv} {n : Nat} {α β : Type} {x : CheckM α} {P Q : Nat → α → Prop}

theorem pure {a : α} (h : ∀ m, n ≤ m → Q m a) : Upheld sc J n (Pure.pure a) Q :=
  fun _ ht hn hJ => ⟨⟨ht, .refl _ _, .refl _, hJ⟩, h _ hn⟩

theorem any (a : α) : Upheld sc J n (Pure.pure a) fun _ _ => True := .pure fun _ _ => trivial

theorem throw (e : Failure) : Upheld sc J n (MonadExcept.throw e : CheckM α) Q :=
  fun _ ht _ hJ => ⟨ht, .refl _ _, .refl _, hJ⟩

theorem bind {f : α → CheckM β} {Q : Nat → β → Prop} (hx : Upheld sc J n x P)
    (hf : ∀ a m, n ≤ m → P m a → Upheld sc J m (f a) Q) : Upheld sc J n (x >>= f) Q := by
  intro s ht hn hJ
  have first := hx s ht hn hJ
  cases h : x s with
  | ok a s1 =>
    rw [h] at first
    obtain ⟨step, ha⟩ := first
    have second := hf a s1.table.size (Nat.le_trans hn step.grown.size_le)
      ha s1 step.closed (Nat.le_refl _) step.holds
    rw [CheckM.bind_ok h]
    exact second.imp step.trans fun _ => id
  | error e s1 =>
    rw [h] at first
    rw [CheckM.bind_error h]
    exact first

theorem ite {c : Prop} [Decidable c] {y : CheckM α}
    (hx : Upheld sc J n x Q) (hy : Upheld sc J n y Q) : Upheld sc J n (if c then x else y) Q := by
  split
  · exact hx
  · exact hy

theorem allM {f : α → CheckM Bool} {xs : List α} (hf : ∀ a ∈ xs, ∀ k, n ≤ k →
    Upheld sc J k (f a) fun _ _ => True) : Upheld sc J n (xs.allM f) fun _ _ => True := by
  induction xs generalizing n with
  | nil => exact .any _
  | cons a as ih =>
    refine (hf a List.mem_cons_self n (Nat.le_refl _)).bind fun holds k hk _ => ?_
    cases holds with
    | true => exact ih (tail_later hf hk)
    | false => exact .any _

theorem onward (hx : Upheld sc J n x Q) (ht : sc.Closed s.table) (hn : n ≤ s.table.size)
    (hJ : J s.table s.vars.vars) : Onward sc J s (x.after s) := by
  have run := hx s ht hn hJ
  unfold CheckM.after
  generalize x s = r at run ⊢
  cases r with
  | ok a s' => exact run.1
  | error e s' => exact run

/-! ## What lasts -/

/-- What the growth of the table and writes that keep levels leave true. -/
def Lasting (K : StoreInv) : Prop := ∀ (t t' : SymbolTable) (vars vars' : Array (VarInfo Ty)), K
  t vars → t.Extends t.size t' → KeepsLevels vars vars' → K t' vars'

theorem and (hx : Upheld sc J n x Q) (hK : Lasting K) :
    Upheld sc (fun t vars => J t vars ∧ K t vars) n x Q :=
  fun s ht hn hJ => (hx s ht hn hJ.1).imp (fun step => ⟨step.closed,
    step.grown, step.levels, step.holds, hK _ _ _ _ hJ.2 step.grown step.levels⟩) fun _ => id

end Upheld

theorem Upkeep.and {K : StoreInv} (hu : Upkeep sc free J G)
    (hK : Upheld.Lasting K) : Upkeep sc free (fun t vars => J t vars ∧ K t vars) G where
  owns := hu.owns
  table hJ := hu.table hJ.1
  grow ht hJ grown ht' held := ⟨hu.grow ht hJ.1 grown ht' held, hK _ _ _ _ hJ.2 grown (.refl _)⟩
  info hJ := hu.info hJ.1
  bound side ht hJ hv hi hty h := ⟨hu.bound side ht hJ.1 hv hi hty (h.imp_right
    (·.imp fun _ _ => And.left)), hK _ _ _ _ hJ.2 (.refl _ _) (.set hi (VarInfo.level_addBound ..))⟩
  fresh level ht hJ horigin :=
    have added := hu.fresh level ht hJ.1 horigin
    ⟨⟨added.1, hK _ _ _ _ hJ.2 (.refl _ _) (.push _ _)⟩, added.2⟩

theorem Instantiating.and {K : StoreInv} (hu : Instantiating sc free J G)
    (hK : Upheld.Lasting K) : Instantiating sc free (fun t vars => J t vars ∧ K t vars) G where
  toUpkeep := hu.toUpkeep.and hK
  inst ht hJ hv hi hty h := ⟨hu.inst ht hJ.1 hv hi hty (h.imp_right (·.imp fun _ _ => And.left)),
    hK _ _ _ _ hJ.2 (.refl _ _) (.set hi rfl)⟩

/-! ## Operations on the state -/

section Operations

open CheckM

variable {sc : Scope} {free : VarId → Prop} {J : StoreInv}
  {G : SymbolTable → Prop} (hu : Upkeep sc free J G) {n : Nat} {α β : Type} {Q : Nat → β → Prop}

/-- Reading the table, which is closed and which later tables extend. -/
theorem readTable_bind_since {f : SymbolTable → CheckM β}
    (h : ∀ t vars, sc.Closed t → J t vars → n ≤ t.size →
      Upheld sc (fun t' vars => J t' vars ∧ t.Extends t.size t') t.size (f t) Q) : Upheld
        sc J n (readTable >>= f) Q :=
  fun s ht hn hJ => (h s.table s.vars.vars ht hJ hn s ht (Nat.le_refl _) ⟨hJ, .refl _ _⟩).imp
    .forget fun _ => id

/-- Reading a variable: its state is in scope, and it stays at its level. -/
theorem varInfo?_bind (hv : sc.In n v) {f : Option (VarInfo Ty) → CheckM β}
    (hu : Upkeep sc free J G) (hnone : Upheld sc J n (f none) Q)
    (hsome : ∀ i m, n ≤ m → sc.In m i → Upheld sc
      (fun t vars => J t vars ∧ ∃ i', vars[v.val]? = some i' ∧ i'.level = i.level)
        m (f (some i)) Q) :
    Upheld sc J n (varInfo? v >>= f) Q := by
  intro s ht hn hJ
  rw [varInfo?_run]
  cases hi : s.vars.info? v with
  | none => exact hnone s ht hn hJ
  | some i =>
    have run := hsome i s.table.size hn (hu.info hJ (hv.mono hn) hi) s ht (Nat.le_refl _)
      ⟨hJ, i, hi, rfl⟩
    exact run.imp .forget fun _ => id

theorem level_lasting (v : VarId) (level : Nat) :
    Upheld.Lasting fun _ vars => ∃ i', vars[v.val]? = some i' ∧ i'.level = level := by
  rintro t t' vars vars' ⟨i, hi, rfl⟩ - kept
  exact kept v.val i hi

theorem since_lasting (t : SymbolTable) : Upheld.Lasting fun t' _ => t.Extends t.size t' :=
  fun _ _ _ _ h grown _ => h.next grown

include hu

/-- An operation on the table that writes only what it entered. -/
theorem onTable_upheld {x : SymM α} {Q : Nat → α → Prop}
    (hx : ∀ b, Keeping sc G b n x Q) : Upheld sc J n (onTable x) Q := by
  intro s ht hn hJ
  have run := (hx s.table.size).safe s.table ht (Nat.le_refl _) hn
  have held := (hx s.table.size).keeps ht (Nat.le_refl _) hn (hu.table hJ)
  unfold SymM.after at held
  unfold onTable
  rw [EStateM.run]
  generalize x s.table = r at run held ⊢
  cases r with
  | ok a t' =>
    obtain ⟨ht', grown, ha⟩ := run
    exact ⟨⟨ht', grown, .refl _, hu.grow ht hJ grown ht' held⟩, ha⟩
  | error e t' => exact ⟨run.1, run.2, .refl _, hu.grow ht hJ run.2 run.1 held⟩

theorem varInfo?_upheld (hv : sc.In n v) : Upheld sc J n (varInfo? v) fun m o => sc.In m o :=
  fun _ ht hn hJ => ⟨⟨ht, .refl _ _, .refl _, hJ⟩, fun _ hi => hu.info hJ (hv.mono hn) hi⟩

omit hu in
/-- A write that keeps the level of the variable. -/
theorem updateVar_upheld {f : VarInfo Ty → VarInfo Ty} (hf : ∀ i, (f i).level = i.level)
    (h : ∀ {t vars i}, sc.Closed t → n ≤ t.size → J t vars → vars[v.val]? = some i →
      J t (vars.setIfInBounds v.val (f i))) : Upheld sc J n (updateVar v f) fun _ _ => True := by
  intro s ht hn hJ
  show Onward sc J s { s with vars := s.vars.update v f } ∧ True
  cases hi : s.vars.info? v with
  | none =>
    rw [UndoLog.update_unknown hi]
    exact ⟨⟨ht, .refl _ _, .refl _, hJ⟩, trivial⟩
  | some i =>
    have vars := UndoLog.vars_update hi f
    exact ⟨⟨ht, .refl _ _, vars ▸ .set hi (hf i), vars ▸ h ht hn hJ hi⟩, trivial⟩

theorem addBound_upheld (side : Side) (hv : sc.In n v) (hty : sc.In n ty)
    (h : ∀ {t vars i}, J t vars → vars[v.val]? = some i → free v ∨ Admissible sc J t i.level ty) :
    Upheld sc J n (updateVar v (VarInfo.addBound side ty)) fun _ _ => True :=
  updateVar_upheld (VarInfo.level_addBound side ty) fun ht hn hJ hi =>
    hu.bound side ht hJ (hv.mono hn) hi (hty.mono hn) (h hJ hi)

omit hu in
theorem setInst_upheld (hu : Instantiating sc free J G) (hv : sc.In n v) (hty : sc.In n ty)
    (h : ∀ {t vars i}, J t vars → vars[v.val]? = some i → free v ∨ Admissible sc J t i.level ty) :
    Upheld sc J n (updateVar v (.setInst ty)) fun _ _ => True :=
  updateVar_upheld (fun _ => rfl) fun ht hn hJ hi =>
    hu.inst ht hJ (hv.mono hn) hi (hty.mono hn) (h hJ hi)

theorem freshVar_upheld {origin : Ty} (horigin : sc.In n origin) :
    Upheld sc J n (freshVar origin {}) fun _ ty => ∃ v, ty = .var v ∧ sc.var v ∧ free v := by
  intro s ht hn hJ
  obtain ⟨added, hv, hfree⟩ := hu.fresh s.skolems.depth ht hJ (horigin.mono hn)
  exact ⟨⟨ht, .refl _ _, .push _ _, added⟩, ⟨s.vars.vars.size⟩, rfl, hv, hfree⟩

omit hu in
theorem atDeeperLevel_upheld {x : Nat → CheckM α} {Q : Nat → α → Prop}
    (hx : ∀ level, Upheld sc J n (x level) Q) : Upheld sc J n (atDeeperLevel x) Q := by
  intro s ht hn hJ
  have run := hx s.skolems.enter.2.depth { s with skolems := s.skolems.enter.2 } ht hn hJ
  rw [atDeeperLevel_run]
  cases s.skolems.enter.1 with
  | false =>
    rw [if_neg (by simp)]
    exact run.imp (fun step => ⟨step.closed, step.grown, step.levels, step.holds⟩) fun _ => id
  | true =>
    rw [if_pos rfl, ending]
    generalize x s.skolems.enter.2.depth { s with skolems := s.skolems.enter.2 } = r at run ⊢
    cases r with
    | ok a s' => exact ⟨⟨run.1.closed, run.1.grown, run.1.levels, run.1.holds⟩, run.2⟩
    | error e s' => exact ⟨run.closed, run.grown, run.levels, run.holds⟩

/-- With its variables taken back, a step has only grown the table. -/
theorem Builds.taken_back (ht : sc.Closed s.table)
    (hJ : J s.table s.vars.vars) (h : Builds sc s s' G) {back : CheckState}
    (htable : back.table = s'.table) (hvars : back.vars = s.vars) : Onward sc J s back := by
  have closed : sc.Closed back.table := htable ▸ h.1
  have grown : s.table.Extends s.table.size back.table := htable ▸ h.2.1
  exact ⟨closed, grown, hvars ▸ .refl _, hvars ▸ hu.grow ht hJ grown closed (htable ▸ h.2.2)⟩

theorem speculate_upheld {x : CheckM α} {Q : Nat → α → Prop}
    (hundo : Keeps Undoes x) (hx : Upheld sc J n x Q) : Upheld sc J n (speculate x) Q := by
  intro s ht hn hJ
  have back := undone_vars hundo s
  have run := hx (opened s) ht hn hJ
  show Ends sc J s Q (ending x (undone s) (opened s))
  unfold ending
  cases hr : x (opened s) with
  | ok a s' =>
    rw [hr] at run
    rw [after_ok hr] at back
    exact ⟨(run.1.builds hu.table).taken_back hu ht hJ rfl back, run.2⟩
  | error e s' =>
    rw [hr] at run
    rw [after_error hr] at back
    exact (run.builds hu.table).taken_back hu ht hJ rfl back

theorem probe_upheld (hundo : Keeps Undoes x) (hx : Contained sc J n x G) :
    Upheld sc J n (probe x) fun _ _ => True := by
  intro s ht hn hJ
  have back := undone_vars hundo s
  have run := hx (opened s) ht hn hJ
  rw [probe_run]
  cases hr : x (opened s) with
  | ok b s' =>
    rw [hr] at run
    rw [after_ok hr] at back
    cases b with
    | true => exact ⟨⟨run.closed, run.grown, run.levels, run.holds⟩, trivial⟩
    | false => exact ⟨Builds.taken_back hu ht hJ run rfl back, trivial⟩
  | error e s' =>
    rw [hr] at run
    rw [after_error hr] at back
    exact Builds.taken_back hu ht hJ run rfl back

theorem query_upheld (hundo : Keeps Undoes x) (hx : Contained sc J n x G)
    (enter : Guard.Entering) (op : Relation) (depth : Option Nat) :
    Upheld sc J n (reported op depth (guarded enter x)) fun _ _ => True := by
  intro s ht hn hJ
  have started : Onward sc J (admitted enter op depth s) (admitted enter op depth s) :=
    ⟨by rwa [admitted_table], .refl _ _, .refl _, by rwa [admitted_table, admitted_vars]⟩
  have within := probe_upheld hu hundo hx _ started.closed (by rwa [admitted_table]) started.holds
  have outer : ∀ {s'}, Onward sc J (admitted enter op depth s) s' →
      ∀ {s''}, s''.table = s'.table → s''.vars = s'.vars → Onward sc J s s'' := by
    intro s' step s'' htable hvars
    have grown := step.grown
    have levels := step.levels
    rw [admitted_table] at grown
    rw [admitted_vars] at levels
    exact ⟨htable ▸ step.closed, htable ▸ grown, hvars ▸
      levels, by rw [htable, hvars]; exact step.holds⟩
  rw [query_run]
  cases (enter s.guard).1 with
  | entered entry =>
    simp only
    generalize probe x (admitted enter op depth s) = r at within ⊢
    cases r with
    | ok b s' => exact ⟨outer within.1 (answered_table ..) (answered_vars ..), trivial⟩
    | error e s' => exact outer within rfl rfl
  | cycle | tooDeep => exact ⟨outer started (answered_table ..) (answered_vars ..), trivial⟩

/-- Where no level is left. -/
theorem refused_upheld (enter : Guard.Entering) (op : Relation) (depth : Option Nat) :
    Upheld sc J n (reported op depth (guarded enter (pure false))) fun _ _ => True :=
  query_upheld hu (fun _ => .of_vars_eq rfl) ((Upheld.any false).contained hu) enter op depth

end Operations

end Conformance

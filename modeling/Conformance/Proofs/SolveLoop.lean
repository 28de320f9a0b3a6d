import Conformance.Proofs.Growth

/-! # The loop that solves a group of variables

Every entry of a group ends done: an entry is in progress only while the entries it depends on are
solved, and at most as many calls are nested as there are entries that are not begun. A variable
whose entry is done is instantiated and stays so. So the loop stops early only where a variable
occurs in its own instantiation, and what is checked after it are the instantiations of the whole
group. -/

namespace Conformance

variable {e : SolveError Ty} {u : Unknown}

/-! ## Variables that become known better -/

namespace UndoLog

variable {τ : Type} {u v w : VarLog τ}

/-- Variables that have grown, and that are filled by what they were, are what they were. -/
theorem Grows.eq_of_fills (h : v.Grows w) (h' : w.Fills v) : w.vars = v.vars := by
  refine h.antisymm fun i b hb => ?_
  obtain ⟨a, ha, fills⟩ := h' i b hb
  obtain ⟨b', hb', grows⟩ := h i a ha
  obtain rfl : b = b' := Option.some.inj (hb.symm.trans hb')
  refine ⟨a, ha, grows.origin.symm, grows.level.symm,
    grows.suspended.symm, fills.lo, fills.hi, fun ty hty => ?_⟩
  obtain ⟨ty', hty'⟩ := Option.isSome_iff_exists.1 (fills.inst (by rw [hty]; rfl))
  rw [hty', ← grows.inst ty' hty', hty]

theorem inst?_setInst {l : VarLog Ty} {x : VarId} (hx : l.contains x = true) (ty : Ty) (y : VarId) :
    (l.update x (.setInst ty)).inst? y =
      if x = y then some ty else l.inst? y := by
  have look : l.info? x = some _ := Array.getElem?_eq_getElem (by simpa [UndoLog.contains] using hx)
  unfold inst?
  split
  next same => rw [← same, UndoLog.info?_update_self look]; rfl
  next other => rw [UndoLog.info?_update_of_ne l other]

theorem fills_setInst (l : VarLog Ty) (x : VarId) (ty : Ty) :
    l.Fills (l.update x (.setInst ty)) := by
  intro i a ha
  rw [UndoLog.getElem?_update, ha]
  split
  · exact ⟨_, rfl, List.prefix_refl _, List.prefix_refl _, fun _ => rfl⟩
  · exact ⟨a, rfl, (VarInfo.Grows.refl a).fills⟩

end UndoLog

/-! ## Computations that may end with an error -/

namespace SolveM

variable {α β : Type} {Pre : CheckState → Prop} {Err : SolveError Ty → CheckState → Prop}
  {Post : α → CheckState → Prop} {f : α → SolveM β} {x : SolveM α}

/-- Begun where `Pre` holds, the computation ends with a value for which `Post` holds or with an
error for which `Err` does. A computation that fails altogether is not spoken of. -/
def Delivers (Pre : CheckState → Prop) (x : SolveM α) (Post : α → CheckState → Prop)
    (Err : SolveError Ty → CheckState → Prop) : Prop :=
  ∀ s, Pre s → (∀ a s', x.run s = .ok (.ok a) s' → Post a s') ∧
    ∀ e s', x.run s = .ok (.error e) s' → Err e s'

namespace Delivers

theorem pure {a : α} (h : ∀ s, Pre s → Post a s) : Delivers Pre (Pure.pure a) Post Err := by
  intro s hs
  refine ⟨fun b s' run => ?_, fun e s' run => ?_⟩
  · cases run
    exact h s hs
  · cases run

theorem throw (h : ∀ s, Pre s → Err e s) : Delivers
    Pre (MonadExcept.throw e : SolveM α) Post Err := by
  intro s hs
  refine ⟨fun b s' run => ?_, fun e s' run => ?_⟩
  · cases run
  · cases run
    exact h s hs

theorem throw_bind {Post : β → CheckState → Prop} (h : ∀ s, Pre s → Err e s) :
    Delivers Pre ((MonadExcept.throw e : SolveM α) >>= f) Post Err := throw h

theorem lift {x : CheckM α} (h : ∀ s, Pre s → ∀ a s', x s = .ok a s' → Post a s') :
    Delivers Pre (liftM x) Post Err := by
  intro s hs
  refine ⟨fun a s' run => ?_, fun e s' run => ?_⟩
  · obtain ⟨b, s1, hx, last⟩ := exists_of_bind run
    cases last
    exact h s hs _ _ hx
  · obtain ⟨b, s1, -, last⟩ := exists_of_bind run
    cases last

theorem bind {Mid : α → CheckState → Prop} {Post : β → CheckState → Prop}
    (hx : Delivers Pre x Mid Err) (hf : ∀ a, Delivers (Mid a) (f a) Post Err) :
    Delivers Pre (x >>= f) Post Err := by
  intro s hs
  have first := hx s hs
  refine ⟨fun b s' run => ?_, fun e s' run => ?_⟩ <;>
    obtain ⟨r, s1, hr, rest⟩ := exists_of_bind run <;> cases r
  · cases rest
  · exact (hf _ s1 (first.1 _ s1 hr)).1 b s' rest
  · cases rest
    exact first.2 _ _ hr
  · exact (hf _ s1 (first.1 _ s1 hr)).2 e s' rest

theorem ite {c : Prop} [Decidable c] {y : SolveM α} (hx : c → Delivers Pre x Post Err)
    (hy : ¬c → Delivers Pre y Post Err) : Delivers Pre (if c then x else y) Post Err := by
  split
  · exact hx ‹_›
  · exact hy ‹_›

theorem imp {Pre' : CheckState → Prop} {Post' : α → CheckState → Prop} (h : Delivers Pre x Post Err)
    (pre : ∀ s, Pre' s → Pre s) (post : ∀ a s, Post a s → Post' a s) : Delivers Pre' x Post' Err :=
  fun s hs => ⟨fun a s' run => post a s' ((h s (pre s hs)).1 a s' run), (h s (pre s hs)).2⟩

theorem mono_error {Err' : SolveError Ty → CheckState → Prop}
    (h : Delivers Pre x Post Err) (err : ∀ e s, Err e s → Err' e s) : Delivers Pre x Post Err' :=
  fun s hs => ⟨(h s hs).1, fun e s' run => err e s' ((h s hs).2 e s' run)⟩

/-- What the first state says of other things may be used. -/
theorem assuming {c : Prop} (hc : ∀ s, Pre s → c)
    (h : c → Delivers Pre x Post Err) : Delivers Pre x Post Err := fun s hs => h (hc s hs) s hs

theorem next {P : α → Prop} {Mid : CheckState → Prop}
    {Post : β → CheckState → Prop} (hx : Delivers Pre x (fun a s => P a ∧ Mid s) Err)
    (hf : ∀ a, P a → Delivers Mid (f a) Post Err) : Delivers Pre (x >>= f) Post Err :=
  hx.bind fun a => .assuming (fun _ h => h.1) fun ha =>
    (hf a ha).imp (fun _ h => h.2) fun _ _ h => h

/-- A loop, with an invariant that may speak of the elements behind. -/
theorem foldlM {f : β → α → SolveM β} (I : List α → β → CheckState → Prop)
    (xs : List α) (b : β) (step : ∀ seen x rest b, xs = seen ++ x :: rest → Delivers (I seen b)
    (f b x) (I (seen ++ [x])) Err) : Delivers (I [] b) (xs.foldlM f b) (I xs) Err := by
  suffices ∀ seen ys b, xs = seen ++ ys → Delivers (I seen b)
    (ys.foldlM f b) (I xs) Err from this [] xs b rfl
  intro seen ys
  induction ys generalizing seen with
  | nil =>
    intro b hxs
    rw [List.append_nil] at hxs
    subst hxs
    exact pure fun s hs => hs
  | cons y ys ih =>
    intro b hxs
    exact bind (step seen y ys b hxs) fun b' => ih
      (seen ++ [y]) b' (by rw [hxs, List.append_assoc]; rfl)

theorem mapM {xs : List α} (h : ∀ x ∈ xs, Delivers Pre (f x) (fun _ => Pre) Err) :
    Delivers Pre (xs.mapM f) (fun _ => Pre) Err := by
  induction xs with
  | nil => exact pure fun s hs => hs
  | cons x xs ih =>
    rw [List.mapM_cons]
    rw [List.forall_mem_cons] at h
    exact h.1.bind fun y => (ih h.2).bind fun ys => pure fun s hs => hs

end Delivers

end SolveM

/-! ## Progress -/

/-- Entries are done one after the other, and an entry that is begun is left to the call that began
it. -/
structure Advances (p p' : List Progress) : Prop where
  length : p'.length = p.length
  kept : ∀ j : Nat, p[j]? ≠ some .unsolved → p'[j]? = p[j]?
  begun : ∀ j : Nat, p[j]? = some .unsolved → p'[j]? = some .unsolved ∨ p'[j]? = some .done
  count : p'.count .unsolved ≤ p.count .unsolved

namespace Advances

variable {p p' p'' : List Progress} {i : Nat}

theorem refl (p : List Progress) : Advances p p :=
    ⟨rfl, fun _ _ => rfl, fun _ h => .inl h, Nat.le_refl _⟩

theorem trans (h : Advances p p') (h' : Advances p' p'') : Advances p p'' := by
  refine ⟨h'.length.trans h.length, fun j hj => ?_, fun j hj => ?_, Nat.le_trans h'.count h.count⟩
  · have kept := h.kept j hj
    rw [h'.kept j (kept ▸ hj), kept]
  · rcases h.begun j hj with hj' | hj'
    · exact h'.begun j hj'
    · exact .inr ((h'.kept j (by simp [hj'])).trans hj')

theorem count_set_unsolved (hi : p[i]? = some .unsolved) (mark : Progress)
    (hmark : mark ≠ .unsolved) : (p.set i mark).count .unsolved + 1 = p.count .unsolved := by
  obtain ⟨lt, hget⟩ := List.getElem?_eq_some_iff.1 hi
  have pos : 0 < p.count .unsolved := List.count_pos_iff.2 (List.mem_of_getElem? hi)
  have other : (mark == Progress.unsolved) = false := by simpa using hmark
  rw [List.count_set lt, hget, other]
  simp only [beq_self_eq_true, if_true, Bool.false_eq_true, if_false]
  omega

theorem set_done (hi : p[i]? = some .unsolved) : Advances p (p.set i .done) := by
  have lt := (List.getElem?_eq_some_iff.1 hi).1
  refine ⟨List.length_set .., fun j hj => ?_, fun j hj => ?_, ?_⟩
  · have hne : i ≠ j := fun e => hj (e ▸ hi)
    rw [List.getElem?_set_ne hne]
  · by_cases hij : i = j
    · subst hij
      exact .inr (by simp [lt])
    · exact .inl (by rwa [List.getElem?_set_ne hij])
  · have := count_set_unsolved hi .done (by simp)
    omega

/-- The whole of an entry: it is begun, others are done meanwhile, and then it is done itself. -/
theorem finish (hi : p[i]? = some .unsolved) (h : Advances (p.set i .inProgress) p') :
    Advances p (p'.set i .done) := by
  have lt := (List.getElem?_eq_some_iff.1 hi).1
  have here : p'[i]? = some .inProgress := by
    rw [h.kept i (by simp [lt])]
    simp [lt]
  obtain ⟨lt', hget⟩ := List.getElem?_eq_some_iff.1 here
  refine ⟨by simpa using h.length, fun j hj => ?_, fun j hj => ?_, ?_⟩
  · have hne : i ≠ j := fun e => hj (e ▸ hi)
    have same : (p.set i .inProgress)[j]? = p[j]? := List.getElem?_set_ne hne
    rw [List.getElem?_set_ne hne, h.kept j (same ▸ hj), same]
  · by_cases hij : i = j
    · subst hij
      exact .inr (by simp [lt'])
    · rw [List.getElem?_set_ne hij]
      exact h.begun j (by rwa [List.getElem?_set_ne hij])
  · have first := count_set_unsolved hi .inProgress (by simp)
    have second := h.count
    have last : (p'.set i .done).count .unsolved = p'.count .unsolved := by
      rw [List.count_set lt', hget]
      simp
    omega

end Advances

/-- The variables whose entries are done are instantiated. -/
def SolveGroup.Accounts (g : SolveGroup) (p : List Progress) (s : CheckState) : Prop :=
  ∀ (j : Nat) u, g.unknowns[j]? = some u → p[j]? = some .done → (s.vars.inst? u.var).isSome = true

namespace SolveGroup.Accounts

variable {g : SolveGroup} {p : List Progress} {i : Nat} {u : Unknown} {s s' : CheckState}

theorem fills (h : g.Accounts p s) (hs : s.vars.Fills s'.vars) : g.Accounts p s' :=
  fun j u hu hj => hs.isSome_inst? (h j u hu hj)

theorem set_done (h : g.Accounts p s) (hu : g.unknowns[i]? = some u)
    (hi : (s.vars.inst? u.var).isSome = true) : g.Accounts (p.set i .done) s := by
  intro j w hw hj
  by_cases hij : i = j
  · subst hij
    obtain rfl : u = w := Option.some.inj (hu.symm.trans hw)
    exact hi
  · rw [List.getElem?_set_ne hij] at hj
    exact h j w hw hj

theorem set_inProgress (h : g.Accounts p s) (i : Nat) : g.Accounts (p.set i .inProgress) s := by
  intro j w hw hj
  by_cases hij : i = j
  · subst hij
    rw [List.getElem?_set] at hj
    simp at hj
  · rw [List.getElem?_set_ne hij] at hj
    exact h j w hw hj

end SolveGroup.Accounts

/-- A variable of the group, open at first, occurs in its instantiation. -/
def SolveError.IsOccurrence (g : SolveGroup) (s0 : CheckState)
    (e : SolveError Ty) (_ : CheckState) : Prop :=
  ∃ u ∈ g.unknowns, ∃ inst, e = .occursCheck u.var inst ∧ s0.vars.inst? u.var = none

/-- What was known of the variables at first still is, and the books are right. -/
def SolveGroup.Proceeding (g : SolveGroup) (s0 : CheckState)
    (p : List Progress) (s : CheckState) : Prop :=
  s0.vars.Grows s.vars ∧ g.Accounts p s

/-- So it is after the entry at `i` has been dealt with, and no entry is back where it was
before. -/
abbrev SolveGroup.Passes (g : SolveGroup) (s0 : CheckState)
    (p : List Progress) (i : Nat) (p' : List Progress) (s : CheckState) : Prop :=
    g.Proceeding s0 p' s ∧ Advances p p' ∧ p'[i]? ≠ some .unsolved

open CheckM SolveM SolveGroup

namespace SolveGroup.Proceeding

variable {g : SolveGroup} {s0 s s' : CheckState} {p : List Progress}

theorem lift {α : Type} {x : CheckM α} (hx : Keeps Adds x)
    {Err : SolveError Ty → CheckState → Prop} : Delivers (g.Proceeding s0 p)
    (liftM x : SolveM α) (fun _ => g.Proceeding s0 p) Err := by
  refine .lift fun s h a s' run => ?_
  have grows := (hx s).grows
  rw [after_ok run] at grows
  exact ⟨h.1.trans grows, h.2.fills grows.fills⟩

/-- A variable that was open at first is instantiated and its entry is done. -/
theorem setInst (h : g.Proceeding s0 p s) {i : Nat} (hu : g.unknowns[i]? = some u)
    (known : s0.vars.contains u.var = true) (hopen : s0.vars.inst? u.var = none) (ty : Ty) :
    g.Proceeding s0 (p.set i .done) { s with
      vars := s.vars.update u.var (.setInst ty) } := by
  have there : s.vars.contains u.var = true := h.1.fills.contains known
  refine ⟨h.1.update fun a b ha grows => grows.setInst ?_ ty, ?_⟩
  · simpa [UndoLog.inst?, ha] using hopen
  · refine (h.2.fills (s.vars.fills_setInst u.var ty)).set_done hu ?_
    simp [UndoLog.inst?_setInst there]

end SolveGroup.Proceeding

section Loop

variable {cfg : Config} {q : Queries} (adds : Queries.InStep (fun x _ => Keeps Adds x) q q)
  {g : SolveGroup} {s0 : CheckState} (known : ∀ u ∈ g.unknowns, s0.vars.contains u.var = true)
include adds known

theorem chooseInst_delivers (hu : u ∈ g.unknowns) (hopen : s0.vars.inst? u.var = none)
    (depth : Depth) (p : List Progress) : Delivers (g.Proceeding s0 p)
    (chooseInst cfg q g depth u) (fun _ => g.Proceeding s0 p)
      (SolveError.IsOccurrence g s0) := by
  -- the variable is there, as it was at first
  have look : Delivers (g.Proceeding s0 p) (liftM (varInfo? u.var) : SolveM _)
      (fun info s => info ≠ none ∧ g.Proceeding s0 p s) (SolveError.IsOccurrence g s0) := by
    refine .lift fun s hs info s' run => ?_
    cases run
    have there := hs.1.fills.contains (known u hu)
    exact ⟨by simpa [UndoLog.info?, UndoLog.contains] using there, hs⟩
  refine look.next fun info there => ?_
  cases info with
  | none => exact absurd rfl there
  | some info =>
    have checked : ∀ inst, Delivers (g.Proceeding s0 p) (do
          let inst ← instantiate cfg inst
          if (← readTable).mentionsVar inst u.var then throw (.occursCheck u.var inst)
          return inst : SolveM Ty) (fun _ => g.Proceeding s0 p) (SolveError.IsOccurrence g s0) := by
      refine fun inst => (Proceeding.lift (adds_lockstep.instantiate inst)).bind fun inst => ?_
      refine (Proceeding.lift adds_lockstep.readTable).bind fun t =>
        .ite (fun _ => ?_) fun _ => .pure fun _ h => h
      exact .throw_bind fun s hs => ⟨u, hu, inst, rfl, hopen⟩
    refine .ite (fun _ => ?_) fun _ => ?_
    · exact (Proceeding.lift (adds_lockstep.glb adds _)).bind checked
    · exact (Proceeding.lift (adds_lockstep.lubUpTo adds _ _)).bind checked

omit adds known in
theorem varInfo_delivers (p : List Progress) (u : Unknown) :
    Delivers (g.Proceeding s0 p) (liftM (varInfo? u.var) : SolveM _)
      (fun info s => info.bind (·.constraint.inst) = s.vars.inst? u.var ∧ g.Proceeding s0 p s)
      (SolveError.IsOccurrence g s0) := by
  refine .lift fun s hs info s' run => ?_
  cases run
  exact ⟨rfl, hs⟩

omit known in
/-- An entry that another may depend on, if those that are left can be dealt with. -/
theorem dependency_delivers {depth : Depth} {n j : Nat} {begun p : List Progress} {other : Unknown}
    (solves : Delivers (g.Proceeding s0 p) (solveOne cfg q g depth n p (other, j)) (g.Passes s0 p j)
      (SolveError.IsOccurrence g s0))
    (advanced : Advances begun p) (up : Bool) (u : Unknown) (param bound : Ty) (cyclic : Bool) :
    Delivers (g.Proceeding s0 p) (do
        if other.tparam == u.tparam then return (p, cyclic)
        if !(← dependsOn q up param bound other.tparam) then return (p, cyclic)
        return (← solveOne cfg q g depth n p (other, j), cyclic || p[j]? == some .inProgress))
      (fun pc s => g.Proceeding s0 pc.1 s ∧ Advances begun pc.1)
        (SolveError.IsOccurrence g s0) := by
  refine .ite (fun _ => .pure fun _ h => ⟨h, advanced⟩) fun _ => ?_
  refine (Proceeding.lift (adds_lockstep.dependsOn adds _ _ _ _)).bind fun b => ?_
  refine .ite (fun _ => .pure fun _ h => ⟨h, advanced⟩) fun _ => ?_
  exact solves.bind fun p' => .pure fun s hs => ⟨hs.1, advanced.trans hs.2.1⟩

/-- The variable itself, once the entries that it depends on have been looked at. -/
theorem enterChoice_delivers {p p' : List Progress}
    {i : Nat} (hu : g.unknowns[i]? = some u) (hopen : s0.vars.inst? u.var = none)
    (hi : p[i]? = some .unsolved) (advanced : Advances (p.set i .inProgress) p') (depth : Depth) :
    Delivers (g.Proceeding s0 p') (enterChoice cfg q g depth u (p'.set i .done)) (g.Passes s0 p i)
      (SolveError.IsOccurrence g s0) := by
  have mem : u ∈ g.unknowns := List.mem_of_getElem? hu
  refine (chooseInst_delivers adds known mem hopen depth p').bind fun inst => ?_
  have write : Delivers (g.Proceeding s0 p') (liftM (updateVar u.var (.setInst inst)) : SolveM Unit)
      (fun _ => g.Proceeding s0 (p'.set i .done)) (SolveError.IsOccurrence g s0) := by
    refine .lift fun s hs a s' run => ?_
    cases run
    exact hs.setInst hu (known u mem) hopen inst
  have done : (p'.set i .done)[i]? ≠ some .unsolved := by
    have lt := (List.getElem?_eq_some_iff.1 hi).1
    rw [List.getElem?_set_self (by rw [advanced.length]; simpa using lt)]
    simp
  exact write.bind fun _ => .pure fun s hs => ⟨hs, .finish hi advanced, done⟩

theorem solveOne_delivers (depth : Depth) (n : Nat) {p : List Progress} {i : Nat}
    (hu : g.unknowns[i]? = some u) (hn : p.count .unsolved ≤ n) : Delivers (g.Proceeding s0 p)
    (solveOne cfg q g depth n p (u, i)) (g.Passes s0 p i) (SolveError.IsOccurrence g s0) := by
  induction n generalizing p u i with
  | zero =>
    refine .pure fun s hs => ⟨hs, .refl p, fun hi => ?_⟩
    have pos : 0 < p.count .unsolved := List.count_pos_iff.2 (List.mem_of_getElem? hi)
    omega
  | succ n ih =>
    rw [solveOne_succ]
    refine .ite (fun hi => .pure fun s hs => ⟨hs, .refl p, by simpa using hi⟩) fun hi => ?_
    have hi : p[i]? = some .unsolved := by simpa using hi
    have lt := (List.getElem?_eq_some_iff.1 hi).1
    refine (varInfo_delivers p u).bind fun info =>
      .ite (fun some? => .pure fun s hs => ?_) fun none? => ?_
    · exact ⟨⟨hs.2.1, hs.2.2.set_done hu (hs.1 ▸ some?)⟩, .set_done hi, by simp [lt]⟩
    have none? : info.bind (·.constraint.inst) = none := by simpa using none?
    refine .assuming (fun s hs => hs.2.1.fills.open_of_open (hs.1.symm.trans none?)) fun hopen => ?_
    refine Delivers.imp ((Proceeding.lift adds_lockstep.readTable).bind fun t => ?_)
      (fun _ h => h.2) fun _ _ h => h
    refine Delivers.bind (show Delivers (g.Proceeding s0 p) _ (fun pc s =>
      g.Proceeding s0 pc.1 s ∧ Advances (p.set i .inProgress) pc.1) _ from ?_) fun pc => ?_
    · refine Delivers.imp (.foldlM (fun _ pc s => g.Proceeding s0 pc.1 s ∧
        Advances (p.set i .inProgress) pc.1) _ _ fun seen entry rest pc split => ?_)
        (fun s hs => ⟨⟨hs.1, hs.2.set_inProgress i⟩, .refl _⟩) fun _ _ h => h
      refine .assuming (fun s hs => hs.2) fun advanced => ?_
      have hother := List.mem_zipIdx_iff_getElem?.1
        (split ▸ List.mem_append_right seen List.mem_cons_self)
      have room : pc.1.count .unsolved ≤ n := by
        have begun := Advances.count_set_unsolved hi .inProgress (by simp)
        have fewer : pc.1.count .unsolved ≤ (p.set i .inProgress).count .unsolved := advanced.count
        omega
      exact (dependency_delivers adds (ih hother room) advanced _ u _ _ _).imp
        (fun _ h => h.1) fun _ _ h => h
    · refine .assuming (fun s hs => hs.2) fun advanced => ?_
      refine Delivers.imp (.ite (fun _ => Delivers.bind (Proceeding.lift ?_) fun _ => ?_) fun _ =>
        ?_) (fun _ h => h.1) fun _ _ h => h
      · exact adds_lockstep.addDeclaredBounds g _ fun f hf => adds_lockstep.addBound _ hf
      all_goals exact enterChoice_delivers adds known hu hopen hi advanced depth

/-- The loop ends with every variable of the group instantiated. -/
theorem solveAll_delivers (depth : Depth) : Delivers (s0.vars.Grows ·.vars)
    (g.unknowns.zipIdx.foldlM (solveOne cfg q g depth g.unknowns.length)
        (g.unknowns.map fun _ => .unsolved))
      (fun _ s => s0.vars.Grows s.vars ∧ ∀ u ∈ g.unknowns, (s.vars.inst? u.var).isSome = true)
      (SolveError.IsOccurrence g s0) := by
  -- the entries behind are begun, and none is left in progress
  let start : List Progress := g.unknowns.map fun _ => .unsolved
  refine Delivers.imp (.foldlM (fun seen p s => (g.Proceeding s0 p s ∧ Advances start p) ∧
    ∀ u j, (u, j) ∈ seen → p[j]? ≠ some .unsolved) _ start fun seen (u, i) rest p split => ?_)
    (fun s hs => ⟨⟨⟨hs, fun j u hu hj => ?_⟩, .refl _⟩, fun _ _ h => nomatch h⟩) fun p s hs =>
    ⟨hs.1.1.1, fun u mem => ?_⟩
  · refine .assuming (fun s hs => (⟨hs.1.2, hs.2⟩ : Advances start p ∧ _)) fun ⟨advanced, behind⟩ =>
      ?_
    have hu : g.unknowns[i]? = some u :=
      List.mem_zipIdx_iff_getElem?.1 (split ▸ List.mem_append_right seen List.mem_cons_self)
    have room : p.count .unsolved ≤ g.unknowns.length := by
      refine Nat.le_trans List.count_le_length ?_
      rw [advanced.length]
      simp [start]
    refine (solveOne_delivers adds known depth _ hu room).imp (fun _ hs => hs.1.1) fun p' s hs => ?_
    refine ⟨⟨hs.1, advanced.trans hs.2.1⟩, fun w j mem => ?_⟩
    rcases List.mem_append.1 mem with mem | mem
    · rw [hs.2.1.kept j (behind w j mem)]
      exact behind w j mem
    · cases List.mem_singleton.1 mem
      exact hs.2.2
  · rw [List.getElem?_map, hu] at hj
    cases hj
  · obtain ⟨j, hj⟩ := List.mem_iff_getElem?.1 mem
    have begun := hs.2 u j (List.mem_zipIdx_iff_getElem?.2 hj)
    have first : start[j]? = some .unsolved := by
      rw [List.getElem?_map, hj]
      rfl
    exact hs.1.1.2 j u hj ((hs.1.2.begun j first).resolve_left begun)

end Loop

/-! ## Errors -/

/-- The variables are instantiated. -/
def CheckState.Instantiates (s : CheckState) (vs : List VarId) : Prop :=
    ∀ v ∈ vs, (s.vars.inst? v).isSome = true

/-- An instantiation of the group is not within its bounds. -/
def SolveError.IsViolation (vs : List VarId) (e : SolveError Ty) (s : CheckState) : Prop :=
  (∃ v ∈ vs, ∃ inst, e = .boundsViolation v inst) ∧ s.Instantiates vs

/-- What solving for `tvars` in `s` has done to the variables when it ends in `s'` with the
error. -/
def SolveError.Leaves (tvars : List Ty) (s s' : CheckState) : SolveError Ty → Prop
  | .arityMismatch .. | .notAVar _ | .unknownVar _ => s' = s
  | .occursCheck v _ => .var v ∈ tvars ∧ s.vars.inst? v = none
  | .boundsViolation v _ => .var v ∈ tvars ∧ ∀ w, .var w ∈ tvars → (s'.vars.inst? w).isSome = true

section Errors

variable {cfg : Config} {q : Queries} (adds : Queries.InStep (fun x _ => Keeps Adds x) q q)
include adds

theorem checkedInst_delivers {vs : List VarId} {v : VarId}
    (hv : v ∈ vs) : Delivers (·.Instantiates vs) (checkedInst cfg q v)
    (fun _ => (·.Instantiates vs)) (SolveError.IsViolation vs) := by
  have lift {α : Type} {x : CheckM α} (hx : Keeps Adds x) : Delivers (·.Instantiates vs)
      (liftM x : SolveM α) (fun _ => (·.Instantiates vs)) (SolveError.IsViolation vs) := by
    refine .lift fun s hs a s' run w mem => ?_
    have grows := (hx s).grows
    rw [after_ok run] at grows
    exact grows.fills.isSome_inst? (hs w mem)
  have look : Delivers (·.Instantiates vs) (liftM (varInfo? v) : SolveM _)
      (fun info s => (info.bind (·.constraint.inst)).isSome = true ∧ s.Instantiates vs)
      (SolveError.IsViolation vs) := by
    refine .lift fun s hs info s' run => ?_
    cases run
    exact ⟨hs v hv, hs⟩
  refine look.next fun info some? => ?_
  cases info with
  | none => cases some?
  | some info =>
    cases hinst : info.constraint.inst with
    | none => simp [hinst] at some?
    | some inst =>
      simp only [hinst]
      refine (lift (adds_lockstep.instantiate _)).bind fun inst => ?_
      have bounds : ∀ tys : List Ty, Delivers (·.Instantiates vs)
          (tys.mapM fun ty => (instantiate cfg ty : CheckM Ty) : SolveM (List Ty))
          (fun _ => (·.Instantiates vs)) (SolveError.IsViolation vs) :=
          fun tys => .mapM fun ty _ => lift (adds_lockstep.instantiate ty)
      have violated : ∀ s : CheckState, s.Instantiates vs →
        SolveError.IsViolation vs (.boundsViolation v inst) s :=
        fun s hs => ⟨⟨v, hv, inst, rfl⟩, hs⟩
      refine (bounds _).bind fun los => (bounds _).bind fun his => ?_
      have above : Delivers (·.Instantiates vs) (do
            if !(← (his.allM (q.sub inst · .unlimited) : CheckM Bool)) then
              throw (.boundsViolation v inst)
            return inst : SolveM Ty) (fun _ => (·.Instantiates vs)) (SolveError.IsViolation vs) :=
        (lift (adds_lockstep.allM (g := (q.sub inst · .unlimited))
          (fun _ => adds.sub _ _ _) his)).bind fun _ =>
          .ite (fun _ => .throw_bind violated) fun _ => .pure fun _ h => h
      exact (lift (adds_lockstep.allM (g := (q.sub · inst .unlimited))
        (fun _ => adds.sub _ _ _) los)).bind fun _ =>
        .ite (fun _ => .throw_bind violated) fun _ => above

omit adds in
theorem leaves_of_knownVars {s : CheckState} {tvars : List Ty}
    (h : knownVars s.vars tvars = .error e) : e.Leaves tvars s s := by
  have refused : (∃ ty, e = .notAVar ty) ∨ ∃ v, e = .unknownVar v := by
    induction tvars with
    | nil => cases h
    | cons ty rest ih =>
      cases ty with
      | var v =>
        rw [knownVars] at h
        split at h
        · cases hrest : knownVars s.vars rest with
          | error e' =>
            rw [hrest] at h
            cases h
            exact ih hrest
          | ok vs =>
            rw [hrest] at h
            cases h
        · cases h
          exact .inr ⟨v, rfl⟩
      | _ =>
        cases h
        exact .inl ⟨_, rfl⟩
  rcases refused with ⟨ty, rfl⟩ | ⟨v, rfl⟩ <;> rfl

theorem solve_delivers (s : CheckState) (tvars : List Ty)
    (tparams : List SymbolId) (variances : List Variance) (upper : Bool) (depth : Depth) :
    Delivers (· = s) (solve cfg q tvars tparams variances upper depth) (fun _ _ => True)
      (fun e s' => e.Leaves tvars s s') := by
  have found : Delivers (· = s) (ExceptT.mk (return knownVars (← get).vars tvars) : SolveM
      (List VarId)) (fun vs s' => knownVars s.vars tvars = .ok vs ∧ s' = s)
      (fun e s' => e.Leaves tvars s s') := by
    rintro s rfl
    refine ⟨fun vs s' run => ?_, fun e s' run => ?_⟩ <;>
      obtain ⟨result, rfl⟩ := EStateM.Result.ok.inj run
    · exact ⟨result, rfl⟩
    · exact leaves_of_knownVars result
  refine .ite (fun _ => .throw_bind fun _ hs => hs) fun lengths =>
    .ite (fun _ => .throw_bind fun _ hs => hs) fun lengths' => ?_
  refine found.next fun vs hvs => ?_
  obtain ⟨rfl, known⟩ := eq_of_knownVars hvs
  have room : vs.length ≤ (tparams.zip variances).length := by
    simp only [bne_iff_ne, ne_eq, Decidable.not_not, List.length_map] at lengths lengths'
    rw [List.length_zip, lengths, lengths']
    omega
  let g : SolveGroup := ⟨(vs.zip (tparams.zip variances)).map fun entry =>
    ⟨entry.1, entry.2.1, entry.2.2⟩, upper⟩
  have group : g.unknowns.map (·.var) = vs := by
    rw [List.map_map]
    exact List.map_fst_zip room
  have mem : ∀ u ∈ g.unknowns, u.var ∈ vs := fun u hu => group ▸ List.mem_map_of_mem hu
  -- the loop, then the checks
  have loop : Delivers (· = s) (g.unknowns.zipIdx.foldlM (solveOne cfg q g depth g.unknowns.length)
      (g.unknowns.map fun _ => .unsolved)) (fun _ => (·.Instantiates vs))
      (fun e s' => e.Leaves (vs.map .var) s s') := by
    have there : ∀ u ∈ g.unknowns, s.vars.contains u.var = true := fun u hu => known _ (mem u hu)
    refine ((solveAll_delivers adds there depth).imp ?_ ?_).mono_error ?_
    · rintro s' rfl
      exact .of_vars_eq rfl
    · intro _ s' hs v hv
      obtain ⟨u, hu, rfl⟩ := List.mem_map.1 (group ▸ hv)
      exact hs.2 u hu
    · rintro _ s' ⟨u, hu, inst, rfl, hopen⟩
      exact ⟨List.mem_map_of_mem (mem u hu), hopen⟩
  refine loop.bind fun _ => (Delivers.mapM fun v hv =>
    (checkedInst_delivers adds hv).mono_error ?_).imp (fun _ h => h) fun _ _ _ => trivial
  rintro _ s' ⟨⟨w, hw, inst, rfl⟩, solved⟩
  refine ⟨List.mem_map_of_mem hw, fun x hx => ?_⟩
  obtain ⟨y, hy, same⟩ := List.mem_map.1 hx
  exact solved x (Ty.var.inj same ▸ hy)

end Errors

end Conformance

import Conformance.Proofs.Balance
import Conformance.Proofs.Classes.Lookup

/-! # Contracts of queries that keep an invariant of the table

A contract says two things of an answer: what holds in any case, and what holds if the guard refused
no entry on the way. Refusals are counted and never taken back, so contracts compose: each step may
use the second part of those before it. A question is decided between two bounds: `true` gives the
one, and the other gives `true`. -/

namespace Conformance

variable {enter : Guard.Entering}

variable {s s1 s2 s3 : CheckState} {v w : VarLog Ty} {ok' : Prop}

/-- What a way of entering does to a guard: it goes one level deeper, or it counts a refusal. -/
def Guard.Admits (enter : Guard QueryKey → Admission QueryKey × Guard QueryKey) : Prop :=
  ∀ g, (enter g).2.maxDepth = g.maxDepth ∧
    match (enter g).1 with
    | .entered _ => g.depth < g.maxDepth ∧ (enter g).2.depth = g.depth + 1 ∧
      (enter g).2.cycles = g.cycles ∧ (enter g).2.cutoffs = g.cutoffs
    | _ => (enter g).2.depth = g.depth ∧ g.cycles ≤ (enter g).2.cycles ∧ g.cutoffs ≤
      (enter g).2.cutoffs ∧ (g.cycles < (enter g).2.cycles ∨ g.cutoffs < (enter g).2.cutoffs)

theorem Guard.Enters.admits {key : Option QueryKey}
    (h : Guard.Enters key enter) : Guard.Admits enter := by
  intro g
  have outcome := h g
  generalize enter g = answer at outcome ⊢
  obtain ⟨a, g'⟩ := answer
  cases outcome <;> simp [*]

theorem Guard.admits_enterUntracked : Guard.Admits (·.enterUntracked) :=
    enters_enterUntracked.admits

theorem Guard.admits_enter (key : QueryKey) : Guard.Admits (·.enter key) :=
    (enters_enter key).admits

namespace CheckM

variable {α β : Type}

/-- No variable was touched, and what a snapshot could take back is as it was. -/
structure Untouched (v w : VarLog Ty) : Prop where
  vars : w.vars = v.vars
  log : v.inSnapshot = true → w = v

theorem Untouched.refl (v : VarLog Ty) : Untouched v v := ⟨rfl, fun _ => rfl⟩

theorem Untouched.trans {u : VarLog Ty} (h : Untouched u v)
    (h' : Untouched v w) : Untouched u w := by
  refine ⟨h'.vars.trans h.vars, fun hs => ?_⟩
  obtain rfl := h.log hs
  exact h'.log hs

/-- A snapshot in which no variable was touched is closed without a trace. -/
theorem Untouched.commit (h : Untouched v.opened w) : Untouched v w.commit.unlock := by
  obtain rfl := h.log v.opened_inSnapshot
  exact ⟨rfl, UndoLog.commit_unlock_opened⟩

theorem Untouched.undo (h : Untouched v.opened w) :
    Untouched v (w.undoTo v.lock.snapshot.1).unlock := by
  obtain rfl := h.log v.opened_inSnapshot
  rw [UndoLog.undoTo_unlock (.refl _)]
  exact .refl v

/-- The table is as `I` says, the variables and the guard are those of `s` but for its
statistics. -/
structure Stays (I : SymbolTable → Prop) (s s' : CheckState) : Prop where
  table : I s'.table
  vars : Untouched s.vars s'.vars
  depth : s'.guard.depth = s.guard.depth
  maxDepth : s'.guard.maxDepth = s.guard.maxDepth
  cycles : s.guard.cycles ≤ s'.guard.cycles
  cutoffs : s.guard.cutoffs ≤ s'.guard.cutoffs

/-- The guard refused an entry. -/
def Counted (s s' : CheckState) : Prop :=
  s.guard.cycles < s'.guard.cycles ∨ s.guard.cutoffs < s'.guard.cutoffs

instance (s s' : CheckState) : Decidable (Counted s s') := inferInstanceAs (Decidable (_ ∨ _))

variable {I : SymbolTable → Prop}

theorem Stays.refl (h : I s.table) : Stays I s s :=
  ⟨h, .refl _, rfl, rfl, Nat.le_refl _, Nat.le_refl _⟩

theorem Stays.trans (h : Stays I s1 s2) (h' : Stays I s2 s3) : Stays I s1 s3 :=
  ⟨h'.table, h.vars.trans h'.vars, h'.depth.trans h.depth,
    h'.maxDepth.trans h.maxDepth, h.cycles.trans h'.cycles, h.cutoffs.trans h'.cutoffs⟩

/-- A snapshot in which everything stays is closed either way. -/
theorem Stays.probed (h : Stays I (opened s1) s2) :
    ∀ b : Bool, Stays I s1 (if b then { s2 with vars := s2.vars.commit.unlock } else undone s1 s2)
  | true => ⟨h.table, h.vars.commit, h.depth, h.maxDepth, h.cycles, h.cutoffs⟩
  | false => ⟨h.table, h.vars.undo, h.depth, h.maxDepth, h.cycles, h.cutoffs⟩

/-- A question leaves the level that it has entered. -/
theorem Stays.answered {entry : Entry QueryKey} {op : Relation}
    {depth : Option Nat} (admits : Guard.Admits enter)
    (entered : (enter s1.guard).1 = .entered entry) (h : Stays I (admitted enter op depth s1) s2)
    (b : Bool) : Stays I s1 (answered op s1 b (left entry s2)) := by
  obtain ⟨maxDepth, admission⟩ := admits s1.guard
  rw [entered] at admission
  obtain ⟨-, deeper, cycles, cutoffs⟩ := admission
  obtain ⟨table, vars, sdepth, smaxDepth, scycles, scutoffs⟩ := h
  simp only [admitted_guard, admitted_vars, deeper, maxDepth, cycles,
    cutoffs] at vars sdepth smaxDepth scycles scutoffs
  refine ⟨by simpa [left] using table, by simpa [left] using vars, ?_, ?_, ?_, ?_⟩ <;>
    simp [left, Guard.leave, *]

theorem Counted.left (h : Counted s1 s2) (h' : Stays I s2 s3) : Counted s1 s3 :=
  h.imp (Nat.lt_of_lt_of_le · h'.cycles) (Nat.lt_of_lt_of_le · h'.cutoffs)

theorem Counted.right (h : Stays I s1 s2) (h' : Counted s2 s3) : Counted s1 s3 :=
  h'.imp (Nat.lt_of_le_of_lt h.cycles ·) (Nat.lt_of_le_of_lt h.cutoffs ·)

theorem Balanced.counted_left (h : Counted s1 s2) (h' : Balanced s2 s3) : Counted s1 s3 :=
  h.imp (Nat.lt_of_lt_of_le · h'.cycles) (Nat.lt_of_lt_of_le · h'.cutoffs)

theorem Balanced.counted_right (h : Balanced s1 s2) (h' : Counted s2 s3) : Counted s1 s3 :=
  h'.imp (Nat.lt_of_le_of_lt h.cycles ·) (Nat.lt_of_le_of_lt h.cutoffs ·)

/-- With `n` levels left, `x` answers so that `P` holds, and `Q` too unless the guard refused an
entry. It fails only if `ok` does not hold. -/
def Settles (I : SymbolTable → Prop) (n : Nat) (ok : Prop) (x : CheckM α) (P Q : α → Prop) : Prop :=
  ∀ s, I s.table → s.guard.maxDepth ≤ s.guard.depth + n → match x s with
    | .ok a s' => Stays I s s' ∧ P a ∧ (Counted s s' ∨ Q a)
    | .error .. => ¬ ok

namespace Settles

variable {n : Nat} {ok : Prop} {x y : CheckM α} {P Q : α → Prop}

theorem pure {a : α} (hP : P a) (hQ : Q a) : Settles I n ok (Pure.pure a) P Q :=
  fun _ hs _ => ⟨.refl hs, hP, .inr hQ⟩

theorem bind {f : α → CheckM β} {P' Q' : β → Prop}
    (hx : Settles I n ok x P Q) (hf : ∀ a, P a → Settles I n ok (f a) P' fun b => Q a → Q' b) :
    Settles I n ok (x >>= f) P' Q' := by
  intro s hs levels
  have first := hx s hs levels
  cases h : x s with
  | ok a s1 =>
    rw [h] at first
    obtain ⟨stays, hP, hQ⟩ := first
    have second := hf a hP s1 stays.table (by rw [stays.maxDepth, stays.depth]; exact levels)
    rw [bind_ok h]
    generalize f a s1 = r at second ⊢
    cases r with
    | ok b s2 =>
      obtain ⟨stays', hP', hQ'⟩ := second
      refine ⟨stays.trans stays', hP', ?_⟩
      obtain counted | hQ := hQ
      · exact .inl (counted.left stays')
      · exact hQ'.imp (Counted.right stays) fun h => h hQ
    | error e s2 => exact second
  | error e s1 =>
    rw [h] at first
    rwa [bind_error h]

theorem imp {P' Q' : α → Prop} (hx : Settles I n ok x P Q) (hP : ∀ a, P a → P' a)
    (hQ : ∀ a, P a → Q a → Q' a) : Settles I n ok x P' Q' := by
  intro s hs levels
  have run := hx s hs levels
  generalize x s = r at run ⊢
  cases r with
  | ok a s' => exact ⟨run.1, hP a run.2.1, run.2.2.imp_right (hQ a run.2.1)⟩
  | error e s' => exact run

theorem of_ok (hx : Settles I n ok' x P Q) (h : ok → ok') : Settles I n ok x P Q := by
  intro s hs levels
  have run := hx s hs levels
  generalize x s = r at run ⊢
  cases r with
  | ok a s' => exact run
  | error e s' => exact fun hok => run (h hok)

theorem ite {c : Prop} [Decidable c] (hx : c → Settles I n ok x P Q)
    (hy : ¬ c → Settles I n ok y P Q) : Settles I n ok (if c then x else y) P Q := by
  split
  next hc => exact hx hc
  next hc => exact hy hc

theorem of_run (hy : Settles I n ok y P Q) (h : ∀ s, I s.table → x s = y s) :
    Settles I n ok x P Q := by
  intro s hs levels
  rw [h s hs]
  exact hy s hs levels

theorem onTable {x : SymM α} (hx : SymM.Attains I ok' x P) (h : ok → ok') (hQ : ∀ a, P a → Q a) :
    Settles I n ok (CheckM.onTable x) P Q := by
  intro s hs _
  have run := hx s.table hs
  unfold CheckM.onTable EStateM.run
  generalize x s.table = r at run ⊢
  cases r with
  | ok a t' =>
    exact ⟨⟨run.1, .refl _, rfl, rfl, Nat.le_refl _, Nat.le_refl _⟩, run.2, .inr (hQ a run.2)⟩
  | error e t' => exact fun hok => run (h hok)

/-- A step on the table counts nothing. -/
theorem onTable_bind {x : SymM α} {f : α → CheckM β} {P' Q' : β → Prop} (hx : SymM.Attains I ok x P)
    (hf : ∀ a, P a → Settles I n ok (f a) P' Q') : Settles I n ok (CheckM.onTable x >>= f) P' Q' :=
  (onTable (Q := fun _ => True) hx id fun _ _ => trivial).bind fun a ha =>
    (hf a ha).imp (fun _ h => h) fun _ _ h _ => h

theorem readTable : Settles I n ok CheckM.readTable I fun _ => True :=
  fun _ hs _ => ⟨.refl hs, hs, .inr trivial⟩

theorem readTable_bind {f : SymbolTable → CheckM α} (hf : ∀ t, I t → Settles I n ok (f t) P Q) :
    Settles I n ok (CheckM.readTable >>= f) P Q := fun s hs levels => hf s.table hs s hs levels

theorem probe {x : CheckM Bool} {P Q : Bool → Prop}
    (hx : Settles I n ok x P Q) : Settles I n ok (CheckM.probe x) P Q := by
  intro s hs levels
  have run := hx (opened s) hs levels
  rw [probe_run]
  generalize x (opened s) = r at run ⊢
  cases r with
  | ok b s' =>
    have stays := run.1.probed b
    cases b <;> exact ⟨stays, run.2⟩
  | error e s' => exact run

theorem allM {as : List β} {f : β → CheckM Bool} {A B : β → Prop}
    (h : ∀ a ∈ as, Settles I n ok (f a) (fun b => b = true → A a) fun b => B a → b = true) : Settles
    I n ok (as.allM f) (fun b => b = true → ∀ a ∈ as, A a) fun b => (∀ a ∈ as, B a) → b = true := by
  induction as with
  | nil => exact .pure (fun _ _ mem => absurd mem List.not_mem_nil) fun _ => rfl
  | cons a as ih =>
    obtain ⟨first, rest⟩ := List.forall_mem_cons.1 h
    refine first.bind fun b hb => ?_
    cases b with
    | false => exact .pure nofun fun refused all => refused (all a List.mem_cons_self)
    | true =>
      refine (ih rest).imp (fun _ holds yes => List.forall_mem_cons.2 ⟨hb rfl, holds yes⟩)
        fun _ _ holds _ all => ?_
      exact holds fun b hb => all b (List.mem_cons_of_mem _ hb)

theorem answers (hx : Settles I n True x P Q) (s : CheckState)
    (hs : I s.table) (levels : s.guard.maxDepth ≤ s.guard.depth + n) :
    ∃ a s', x s = .ok a s' ∧ Stays I s s' ∧ P a ∧ (Counted s s' ∨ Q a) := by
  have run := hx s hs levels
  generalize x s = r at run ⊢
  cases r with
  | ok a s' => exact ⟨a, s', rfl, run⟩
  | error e s' => exact absurd trivial run

/-- The contract from a state with any levels left. -/
theorem run (hx : ∀ n, Settles I n ok x P Q) (hs : I s.table) (hok : ok) :
    ∃ a s', x s = .ok a s' ∧ Stays I s s' ∧ P a ∧ (Counted s s' ∨ Q a) :=
  ((hx s.guard.maxDepth).of_ok fun _ => hok).answers s hs (by omega)

theorem of_answer {a : α} (hx : ∀ n, Settles I n ok x P Q) (hs : I s.table)
    (answer : x.answer? s = some a) : P a := by
  have run := hx s.guard.maxDepth s hs (by omega)
  cases h : x s with
  | ok b s' =>
    rw [h] at run
    rw [answer?_ok h] at answer
    cases answer
    exact run.2.1
  | error e s' =>
    rw [answer?_error h] at answer
    cases answer

/-- A query asks its rule with one level less; a refused one answers `false`. -/
theorem query (admits : Guard.Admits enter) (op : Relation) (depth : Option Nat) {x : CheckM Bool}
    {P Q : Bool → Prop} (hP : P false) (hx : ∀ m, n = m + 1 → Settles I m ok x P Q) :
    Settles I n ok (reported op depth (guarded enter x)) P Q := by
  intro s hs levels
  obtain ⟨maxDepth, admission⟩ := admits s.guard
  rw [query_run]
  cases entered : (enter s.guard).1 with
  | entered entry =>
    rw [entered] at admission
    obtain ⟨room, deeper, cycles, cutoffs⟩ := admission
    have run := (hx (n - 1) (by omega)).probe (admitted enter op depth s) (by simpa using hs)
      (by simp only [admitted_guard]; omega)
    cases h' : CheckM.probe x (admitted enter op depth s) with
    | ok b s' =>
      rw [h'] at run
      obtain ⟨stays, hP, hQ⟩ := run
      exact ⟨stays.answered admits entered b,
        hP, by simpa [Counted, left, Guard.leave, cycles, cutoffs] using hQ⟩
    | error e s' =>
      rw [h'] at run
      exact run
  | cycle | tooDeep =>
    rw [entered] at admission
    obtain ⟨depth, cycles, cutoffs, counted⟩ := admission
    exact ⟨⟨by simpa using hs, by simpa using .refl _, by simpa using depth,
      by simpa using maxDepth, by simpa using cycles, by simpa using cutoffs⟩, hP,
      .inl (by simpa [Counted] using counted)⟩

end Settles

/-- The answer `true` implies `A`, and unless the guard refused an entry it follows from `D`. -/
def Decided (t : SymbolTable) (n : Nat) (ok : Prop) (x : CheckM Bool) (A D : Prop) : Prop :=
  Settles t.Remembers n ok x (fun b => b = true → A) (fun b => D → b = true)

namespace Decided

variable {t : SymbolTable} {n : Nat} {ok : Prop} {x y : CheckM Bool} {A A' D D' : Prop}

theorem imp (hx : Decided t n ok x A D) (hA : A → A') (hD : D' → D) : Decided t n ok x A' D' :=
  Settles.imp hx (fun _ h b => hA (h b)) fun _ _ h d => h (hD d)

theorem yes (h : A) : Decided t n ok (pure true) A D := .pure (fun _ => h) fun _ => rfl

theorem no (h : ¬ D) : Decided t n ok (pure false) A D :=
    .pure (fun b => nomatch b) fun d => absurd d h

/-- After a computation that no refusal affects. -/
theorem after {x : CheckM α} {P : α → Prop} {f : α → CheckM Bool}
    (hx : Settles t.Remembers n ok x P fun _ => True)
    (h : ∀ a, P a → Decided t n ok (f a) A D) : Decided t n ok (x >>= f) A D :=
  Settles.bind hx fun a ha => Settles.imp (h a ha) (fun _ h => h) fun _ _ h _ => h

theorem readTable {f : SymbolTable → CheckM Bool} (h : ∀ t', t.Remembers t' →
    Decided t n ok (f t') A D) : Decided t n ok (CheckM.readTable >>= f) A D := after .readTable h

theorem onTable {y : SymM α} {P : α → Prop} {f : α → CheckM Bool}
    (hy : SymM.Yields t ok' y P) (hok : ok → ok') (h : ∀ a, P a → Decided t n ok (f a) A D) :
    Decided t n ok (CheckM.onTable y >>= f) A D :=
  after (.onTable hy hok fun _ _ => trivial) h

/-- A conjunction stops at the first `false`. -/
theorem and (hx : Decided t n ok x A D) (hy : A → Decided t n ok y A' D') :
    Decided t n ok (x >>= fun b => if !b then pure false else y) (A ∧ A') (D ∧ D') := by
  refine Settles.bind hx fun b hb => ?_
  cases b with
  | false => exact .pure (fun b => nomatch b) fun h d => h d.1
  | true => exact Settles.imp (hy (hb rfl)) (fun _ h b => ⟨hb rfl, h b⟩) fun _ _ h _ d => h d.2

/-- An alternation stops at the first `true`. -/
theorem or (hx : Decided t n ok x A D) (hy : Decided t n ok y A' D') :
    Decided t n ok (x >>= fun b => if b then pure true else y) (A ∨ A') (D ∨ D') := by
  refine Settles.bind hx fun b hb => ?_
  cases b with
  | true => exact .pure (fun _ => .inl (hb rfl)) fun _ _ => rfl
  | false =>
    refine Settles.imp hy (fun _ h b => .inr (h b)) fun b _ h no d => ?_
    obtain d | d := d
    · exact absurd (no d) (by simp)
    · exact h d

theorem query (admits : Guard.Admits enter)
    (op : Relation) (depth : Option Nat) (hx : ∀ m, n = m + 1 → Decided t m ok x A D) :
    Decided t n ok (reported op depth (guarded enter x)) A D :=
  Settles.query admits op depth (fun b => nomatch b) hx

end Decided

end CheckM

end Conformance

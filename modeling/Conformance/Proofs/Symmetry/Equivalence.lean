import Conformance.Proofs.Classes.Contract
import Conformance.Proofs.Symmetry.Persistence

/-! # Equivalence is symmetric

The rules take a pair of types apart from the left, but each of them has a mirror image, and on
types without binders the operations between the questions leave nothing behind that a later one
could see. So a question and its mirror image ask mirrored questions on the same levels. They differ
in one thing: which of two prefixes is looked at first, and with it in the fuel that they need. -/

namespace Conformance

variable {s : CheckState} {ty ty1 ty2 : Ty}

open SymM SymbolTable

variable {k : Nat}

/-- The configuration with another bound on type operations. -/
def Config.fueled (cfg : Config) (fuel : Nat) : Config := { cfg with fuel }

namespace CheckM

variable {α β : Type} {x : Nat → SymM α} {P : α → Prop}

/-- With `k` levels left, over the declarations of `t`. -/
structure Stands (t : SymbolTable) (k : Nat) (s : CheckState) : Prop where
  table : t.Computed s.table
  levels : Config.levelsLeft s = k

theorem Stays.stands {t : SymbolTable} {s' : CheckState}
    (h : Stays t.Computed s s') (hs : Stands t k s) : Stands t k s' := by
  refine ⟨h.table, ?_⟩
  rw [← hs.levels, Config.levelsLeft, h.maxDepth, h.depth, Config.levelsLeft]

/-- What `x` answers, `y` answers with enough fuel, from any state that stands where `x` was
asked. -/
def Mirrors (t : SymbolTable) (k : Nat) (x : CheckM α) (y : Nat → CheckM α) : Prop :=
  ∀ s, Stands t k s → ∀ a s1, x s = .ok a s1 → Stays t.Computed s s1 ∧ ∃ bound, ∀ m, bound ≤ m →
    ∀ s', Stands t k s' → ∃ s1', y m s' = .ok a s1' ∧ Stays t.Computed s' s1'

namespace Mirrors

variable {t : SymbolTable} {k : Nat} {x x' : CheckM α} {y y' : Nat → CheckM α}

theorem pure (a : α) : Mirrors t k (Pure.pure a) fun _ => Pure.pure a := by
  intro s hs a s1 run
  cases run
  exact ⟨.refl hs.table, 0, fun _ _ s' hs' => ⟨s', rfl, .refl hs'.table⟩⟩

theorem bind {f : α → CheckM β} {g : Nat → α → CheckM β} (hx : Mirrors t k x y)
    (hf : ∀ a, Mirrors t k (f a) (g · a)) : Mirrors t k (x >>= f) fun m => y m >>= g m := by
  intro s hs b s2 run
  obtain ⟨a, s1, first, second⟩ := exists_of_bind run
  obtain ⟨proceeds, bound, mirrored⟩ := hx s hs a s1 first
  obtain ⟨proceeds', bound', mirrored'⟩ := hf a s1 (proceeds.stands hs) b s2 second
  refine ⟨proceeds.trans proceeds', max bound bound', fun m enough s' hs' => ?_⟩
  obtain ⟨s1', first', kept⟩ := mirrored m (Nat.le_trans (Nat.le_max_left ..) enough) s' hs'
  obtain ⟨s2', second', kept'⟩ := mirrored' m (Nat.le_trans (Nat.le_max_right ..) enough)
    s1' (kept.stands hs')
  exact ⟨s2', (bind_ok first').trans second', kept.trans kept'⟩

theorem ite {c c' : Prop} [Decidable c] [Decidable c']
    (iff : c ↔ c') (hx : c → Mirrors t k x y) (hy : ¬ c → Mirrors t k x' y') :
    Mirrors t k (if c then x else x') fun m => if c' then y m else y' m := by
  by_cases hc : c
  · simp only [if_pos hc, if_pos (iff.1 hc)]
    exact hx hc
  · simp only [if_neg hc, if_neg (mt iff.2 hc)]
    exact hy hc

theorem trans {z : Nat → CheckM α} (hx : Mirrors t k x y)
    (hy : ∀ n, Mirrors t k (y n) z) : Mirrors t k x z := by
  intro s hs a s1 run
  obtain ⟨proceeds, bound, mirrored⟩ := hx s hs a s1 run
  obtain ⟨s1', run', -⟩ := mirrored bound (Nat.le_refl _) s hs
  exact ⟨proceeds, (hy bound s hs a s1' run').2⟩

theorem readTable_bind {f : SymbolTable → CheckM α} {g : Nat → SymbolTable → CheckM α}
    (read : ∀ t', t.Computed t' → f t' = f t) (read' : ∀ m t', t.Computed t' → g m t' = g m t)
    (h : Mirrors t k (f t) (g · t)) : Mirrors t k (CheckM.readTable >>= f) fun m =>
    CheckM.readTable >>= g m := by
  intro s hs a s1 run
  obtain ⟨proceeds, bound, mirrored⟩ := h s hs a s1 ((congrFun (read _ hs.table) s).symm.trans run)
  refine ⟨proceeds, bound, fun m enough s' hs' => ?_⟩
  obtain ⟨s1', run', kept⟩ := mirrored m enough s' hs'
  exact ⟨s1', (congrFun (read' m _ hs'.table) s').trans run', kept⟩

end Mirrors

/-- Asked where `k` levels are left, `x` answers `a`. -/
def Answers (t : SymbolTable) (k : Nat) (x : CheckM α) (a : α) : Prop :=
  ∀ s, Stands t k s → ∃ s1, x s = .ok a s1 ∧ Stays t.Computed s s1

def Fails (t : SymbolTable) (k : Nat) (x : CheckM α) : Prop :=
    ∀ s, Stands t k s → ∃ e s1, x s = .error e s1

/-- A step on the table whose answer persists fails, or gives its answer with that much fuel. -/
theorem answers_of_persists {t : SymbolTable} {n : Nat} (hx : Persists t n x P) :
    Fails t k (onTable (x n)) ∨ ∃ a, P a ∧ ∀ m, n ≤ m → Answers t k (onTable (x m)) a := by
  unfold Fails Answers onTable EStateM.run
  refine hx.imp (fun fails s hs => ?_) fun ⟨a, ha, gives⟩ => ⟨a, ha, fun m le s hs => ?_⟩
  · obtain ⟨e, t', failed⟩ := fails _ hs.table
    rw [failed]
    exact ⟨e, _, rfl⟩
  · obtain ⟨t', ran, ht'⟩ := gives m le s.table hs.table
    rw [ran]
    exact ⟨_, rfl, ht', .refl _, rfl, rfl, Nat.le_refl _, Nat.le_refl _⟩

namespace Mirrors

variable {t : SymbolTable} {k n : Nat}

theorem after_left {x : CheckM α} {f : α → CheckM β} {y : Nat → CheckM β}
    (hx : Fails t k x ∨ ∃ a, Answers t k x a ∧ Mirrors t k (f a) y) : Mirrors t k (x >>= f) y := by
  intro s hs b s2 run
  obtain fails | ⟨a, answers, h⟩ := hx
  · obtain ⟨e, s1, failed⟩ := fails s hs
    rw [bind_error failed] at run
    cases run
  · obtain ⟨s1, first, kept⟩ := answers s hs
    rw [bind_ok first] at run
    obtain ⟨kept', mirrored⟩ := h s1 (kept.stands hs) b s2 run
    exact ⟨kept.trans kept', mirrored⟩

/-- A first step of the mirror image that has one answer with enough fuel. -/
theorem after_right {x : CheckM β} {y : Nat → CheckM α} {g : Nat → α → CheckM β} {a : α}
    (hy : ∀ m, n ≤ m → Answers t k (y m) a) (h : Mirrors t k x (g · a)) : Mirrors t k x fun m =>
    y m >>= g m := by
  intro s hs b s1 run
  obtain ⟨kept, bound, mirrored⟩ := h s hs b s1 run
  refine ⟨kept, max n bound, fun m enough s' hs' => ?_⟩
  obtain ⟨s1', first, kept1⟩ := hy m (Nat.le_trans (Nat.le_max_left ..) enough) s' hs'
  obtain ⟨s2', second, kept2⟩ := mirrored m (Nat.le_trans (Nat.le_max_right ..) enough)
    s1' (kept1.stands hs')
  exact ⟨s2', (bind_ok first).trans second, kept1.trans kept2⟩

theorem onTable (hx : Persists t n x P) {f : α → CheckM β} {g : Nat → α → CheckM β}
    (hf : ∀ a, P a → Mirrors t k (f a) (g · a)) : Mirrors t k (CheckM.onTable (x n) >>= f) fun m =>
    CheckM.onTable (x m) >>= g m :=
  .after_left ((answers_of_persists hx).imp_right fun ⟨a, ha, gives⟩ =>
    ⟨a, gives n (Nat.le_refl n), .after_right gives (hf a ha)⟩)

/-- Two steps on the table in one order and in the other. -/
theorem onTable_swap {y : Nat → SymM α} (hx : Persists t n x P)
    (hy : Persists t n y P) {f : α → α → CheckM β}
    {g : Nat → α → α → CheckM β} (hf : ∀ a b, P a → P b → Mirrors t k (f a b) fun m => g m b a) :
    Mirrors t k (CheckM.onTable (x n) >>= fun a => CheckM.onTable (y n) >>= f a) fun m =>
      CheckM.onTable (y m) >>= fun b => CheckM.onTable (x m) >>= g m b := by
  refine .after_left ((answers_of_persists hx).imp_right fun ⟨a, ha, gives⟩ =>
    ⟨a, gives n (Nat.le_refl n), ?_⟩)
  refine .after_left ((answers_of_persists hy).imp_right fun ⟨b, hb, gives'⟩ =>
    ⟨b, gives' n (Nat.le_refl n), ?_⟩)
  exact .after_right gives' (.after_right gives (hf a b ha hb))

end Mirrors

/-! ## Levels -/

namespace Mirrors

variable {t : SymbolTable} {k : Nat} {x : CheckM Bool} {y : Nat → CheckM Bool}

theorem query (h : Mirrors t k x y) : Mirrors t (k + 1)
    (reported .sameType none (guarded (·.enterUntracked) x)) fun m =>
    reported .sameType none (guarded (·.enterUntracked) (y m)) := by
  -- where there is room, the rule runs one level deeper
  have inner : ∀ {s}, Stands t (k + 1) s → s.guard.enterUntracked.1 = .entered ⟨none⟩ ∧
      Stands t k (opened (admitted (·.enterUntracked) .sameType none s)) := by
    intro s hs
    have levels := hs.levels
    unfold Config.levelsLeft at levels
    have entered : s.guard.enterUntracked = (.entered ⟨none⟩,
        { s.guard with iterations := s.guard.iterations + 1, depth := s.guard.depth + 1 }) :=
      if_neg (by omega)
    refine ⟨congrArg Prod.fst entered, by simpa [opened] using hs.table, ?_⟩
    rw [Config.levelsLeft, opened, admitted_guard, entered]
    show s.guard.maxDepth - (s.guard.depth + 1) = k
    omega
  intro s hs b s1 run
  obtain ⟨entered, hs0⟩ := inner hs
  obtain ⟨refused, -⟩ | ⟨entry, s2, entered', rule, rfl⟩ := query_ok run
  · simp [entered] at refused
  obtain ⟨kept, bound, mirrored⟩ := h _ hs0 b s2 rule
  refine ⟨(kept.probed b).answered Guard.admits_enterUntracked entered' b,
    bound, fun m enough s' hs' => ?_⟩
  obtain ⟨entered, hs0⟩ := inner hs'
  obtain ⟨s2', rule', kept'⟩ := mirrored m enough _ hs0
  refine ⟨_, ?_, (kept'.probed b).answered Guard.admits_enterUntracked entered b⟩
  simp only [query_run, entered, probe_run, rule']
  cases b <;> rfl

/-- Without a level left every question is refused. -/
theorem refused : Mirrors t 0 (reported .sameType none (guarded (·.enterUntracked) x))
    fun m => reported .sameType none (guarded (·.enterUntracked) (y m)) := by
  have ends : ∀ {s}, Stands t 0 s → ∀ x, ∃ s1, reported
      .sameType none (guarded (·.enterUntracked) x) s = .ok false s1 ∧ Stays t.Computed s s1 := by
    intro s hs x
    have refused : Settles t.Computed
      0 True (reported .sameType none (guarded (·.enterUntracked) x)) (· = false) fun _ => True :=
      .query Guard.admits_enterUntracked _ _ rfl nofun
    obtain ⟨b, s1, run, stays, rfl, -⟩ := refused.answers
      s hs.table (Nat.le_of_sub_eq_zero hs.levels)
    exact ⟨s1, run, stays⟩
  intro s hs b s1 run
  obtain ⟨s2, ended, proceeds⟩ := ends hs x
  rw [run] at ended
  cases ended
  exact ⟨proceeds, 0, fun m _ s' hs' => ends hs' (y m)⟩

end Mirrors

end CheckM

/-! ## Prefixes -/

/-- A checker that reads the declarations and answers. -/
def AnnotationChecker.Reads (f : AnnotationChecker) : Prop :=
  ∀ (l r : Ty) (t : SymbolTable), ∃ b, ∀ t' : SymbolTable, t'.records = t.records →
    f l r t' = .ok b t'

theorem AnnotationChecker.typeConstraints_reads : typeConstraints.Reads := by
  intro l r t
  refine ⟨r.annotations.all fun a => !(t.flags a).has .typeConstraint || l.annotations.contains a,
    fun t' same => ?_⟩
  have flags : t'.flags = t.flags := by
    funext a
    rw [SymbolTable.flags, SymbolTable.get, same]
    rfl
  show EStateM.Result.ok _ t' = _
  rw [flags]

/-- The prefixes that may equal one with other symbols, among those without variables. -/
def Ty.isFlexible (t : SymbolTable) : Ty → Bool
  | .single pre s => !(t.flags s).has .package && pre.isFlexible t
  | .refined .. => true
  | _ => false

open CheckM

section Rules

variable {t : SymbolTable} {U : SymbolId → Prop} {k : Nat}

/-- Too little fuel for a path is the only way to fail. -/
theorem isFlexiblePrefix_answers (h : t.Tame U ty) (m : Nat) : Answers t k (isFlexiblePrefix m ty)
    (ty.isFlexible t) ∨ m ≤ sizeOf ty ∧ Fails t k (isFlexiblePrefix m ty) := by
  induction m generalizing ty with
  | zero => exact .inr ⟨Nat.zero_le _, fun s _ => ⟨_, s, rfl⟩⟩
  | succ m ih =>
    cases h with
    | @single pre f path named =>
      have step : ∀ s, Stands t k s → isFlexiblePrefix (m + 1) (.single pre f) s =
          (if (t.flags f).has .package then .ok false s else isFlexiblePrefix m pre s) := by
        intro s hs
        have flags :
          s.table.flags f = t.flags f := by rw [flags, hs.table.get_eq, SymbolTable.flags]
        rw [← flags]
        show (if _ then _ else _ : CheckM Bool) s = _
        split <;> rfl
      by_cases package : (t.flags f).has .package = true
      · refine .inl fun s hs => ⟨s, ?_, .refl hs.table⟩
        rw [step s hs, if_pos package, Ty.isFlexible, package]
        rfl
      · simp only [package] at step
        rw [Ty.isFlexible, Bool.eq_false_iff.2 package]
        refine (ih path).imp (fun answers s hs => ?_) fun short => ⟨?_, fun s hs => ?_⟩
        · exact step s hs ▸ answers s hs
        · have le := short.1
          rw [Ty.single.sizeOf_spec]
          omega
        · exact step s hs ▸ short.2 s hs
    | _ => exact .inl fun s hs => ⟨s, rfl, .refl hs.table⟩

variable {cfg : Config} {Q : Nat → Queries} (hq : ∀ n {a b : Ty}, t.Tame U a →
  t.Tame U b → Mirrors t k ((Q n).same a b) fun m => (Q m).same b a)
include hq

theorem sameAll_mirrors (n : Nat) {ls rs : List Ty} (hls : ∀ l ∈ ls, t.Tame U l)
    (hrs : ∀ r ∈ rs, t.Tame U r) : Mirrors t k ((Q n).sameAll ls rs) fun m =>
    (Q m).sameAll rs ls := by
  unfold Queries.sameAll
  refine .ite eq_comm (fun len => ?_) fun _ => .pure false
  induction ls generalizing rs with
  | nil =>
    obtain rfl := List.eq_nil_of_length_eq_zero len.symm
    exact .pure true
  | cons l ls ih =>
    cases rs with
    | nil => cases len
    | cons r rs =>
      obtain ⟨hl, hls⟩ := List.forall_mem_cons.1 hls
      obtain ⟨hr, hrs⟩ := List.forall_mem_cons.1 hrs
      simp only [List.zip_cons_cons, List.allM]
      refine (hq n hl hr).bind fun b => ?_
      cases b with
      | false => exact .pure false
      | true => exact ih hls hrs (Nat.succ.inj len)

theorem unifiable_mirrors (n : Nat) {pre1 pre2 : Ty} (h1 : t.Tame U pre1)
    (h2 : t.Tame U pre2) : Mirrors t k (unifiable (cfg.fueled n) (Q n) pre1 pre2) fun m =>
    unifiable (cfg.fueled m) (Q m) pre2 pre1 := by
  -- the mirrored question needs the fuel for both paths
  have right {ty : Ty} (h : t.Tame U ty) (m : Nat) (enough : sizeOf ty + 1 ≤ m) :
      Answers t k (isFlexiblePrefix m ty) (ty.isFlexible t) :=
    (isFlexiblePrefix_answers h m).resolve_right fun ⟨le, _⟩ => absurd le (by omega)
  have asked := hq n h1 h2
  refine .after_left ((isFlexiblePrefix_answers h1 n).symm.imp And.right fun left =>
    ⟨_, left, .after_right (right h2) ?_⟩)
  cases first : pre1.isFlexible t with
  | true =>
    cases pre2.isFlexible t with
    | true => exact asked
    | false =>
      refine .after_right (right h1) ?_
      rw [first]
      exact asked
  | false =>
    refine .after_left ((isFlexiblePrefix_answers h2 n).symm.imp And.right fun left =>
      ⟨_, left, ?_⟩)
    cases pre2.isFlexible t with
    | true => exact asked
    | false =>
      refine .after_right (right h1) ?_
      rw [first]
      exact .pure false

theorem sameEntity_mirrors (n : Nat) (s1 s2 : SymbolId) {pre1 pre2 : Ty} (h1 : t.Tame U pre1)
    (h2 : t.Tame U pre2) : Mirrors t k (sameEntity (cfg.fueled n) (Q n) s1 pre1 s2 pre2) fun m =>
    sameEntity (cfg.fueled m) (Q m) s2 pre2 s1 pre1 := by
  unfold sameEntity
  refine .readTable_bind (fun t' ht' => ?_) (fun m t' ht' => ?_) ?_
  · simp only [flags, owner, name, ht'.get_eq]
    rfl
  · simp only [flags, owner, name, ht'.get_eq]
    rfl
  refine .ite ?_ (fun same => ?_) fun _ => .ite ?_ (fun _ => unifiable_mirrors hq n h1 h2) fun _ =>
    .pure false
  · simp only [beq_iff_eq]
    exact eq_comm
  · obtain rfl := beq_iff_eq.1 same
    exact .ite Iff.rfl (fun _ => .pure true) fun _ => hq n h1 h2
  · simp only [beq_iff_eq]
    exact eq_comm

/-! ## Shapes -/

omit hq in
theorem settledIf_mirrors {x : CheckM Bool} {y : Nat → CheckM Bool}
    (h : Mirrors t k x y) : Mirrors t k (settledIf x) fun m =>
    settledIf (y m) := h.bind fun b => .pure (if b then some true else none)

theorem singleMatchesModule_mirrors (n : Nat) (s cls : SymbolId)
    {pre clsPre : Ty} (h : t.Tame U pre) (hcls : t.Tame U clsPre) (args : List Ty) :
    Mirrors t k (singleMatchesModule (cfg.fueled n) (Q n) s pre cls clsPre args) fun m =>
      singleMatchesModule (cfg.fueled m) (Q m) s pre cls clsPre args := by
  unfold singleMatchesModule
  refine .readTable_bind (fun t' ht' => ?_) (fun m t' ht' => ?_)
    (.ite Iff.rfl (fun _ => ?_) fun _ => .pure false)
  · rw [ht'.get_eq]
  · rw [ht'.get_eq]
  -- the module is asked about in the same order on both sides
  · exact (sameEntity_mirrors hq n _ _ h hcls).trans fun m => sameEntity_mirrors hq m _ _ hcls h

theorem sameRefs_mirrors (n : Nat) {pre1 pre2 : Ty}
    {s1 s2 : SymbolId} {args1 args2 : List Ty} (path1 : t.Tame U pre1)
    (path2 : t.Tame U pre2) (each1 : ∀ a ∈ args1, t.Tame U a) (each2 : ∀ a ∈ args2, t.Tame U a)
    (applied1 : args1 = [] → t.tparams s1 = []) (applied2 : args2 = [] → t.tparams s2 = []) :
    Mirrors t k (sameShape (cfg.fueled n) (Q n) (.ref pre1 s1 args1) (.ref pre2 s2 args2)) fun m =>
      sameShape (cfg.fueled m) (Q m) (.ref pre2 s2 args2) (.ref pre1 s1 args1) := by
  unfold sameShape
  refine (sameEntity_mirrors hq n s1 s2 path1 path2).bind fun same =>
    .ite Iff.rfl (fun _ => .pure none) fun _ => ?_
  -- no constructor is left without arguments
  have complete : ∀ {s : SymbolId} {args args' : List Ty}, (args = [] → t.tparams s = []) →
      ¬ (args.isEmpty && args'.isEmpty && !(t.tparams s).isEmpty) = true := by
    intro s args args' applied
    cases args with
    | nil => simp [applied rfl]
    | cons => simp
  refine .readTable_bind (fun t' ht' => ?_) (fun m t' ht' => ?_) ?_
  · rw [tparams, ht'.get_eq]
    rfl
  · rw [tparams, ht'.get_eq]
    rfl
  refine .ite (iff_of_false (complete applied1) (complete applied2)) (fun absurdly => ?_) fun _ =>
    ?_
  · exact absurd absurdly (complete applied1)
  · exact settledIf_mirrors (sameAll_mirrors hq n each1 each2)

theorem sameRefined_mirrors (n : Nat) {parents1 parents2 : List Ty} (cls1 cls2 : SymbolId)
    (each1 : ∀ p ∈ parents1, t.Tame U p) (each2 : ∀ p ∈ parents2, t.Tame U p) : Mirrors
    t k (sameShape (cfg.fueled n) (Q n) (.refined parents1 [] cls1) (.refined parents2 [] cls2))
    fun m =>
      sameShape (cfg.fueled m) (Q m) (.refined parents2 [] cls2) (.refined parents1 [] cls1) := by
  unfold sameShape
  refine (sameAll_mirrors hq n each1 each2).bind fun same =>
    .ite Iff.rfl (fun _ => .pure _) fun _ => ?_
  exact .bind (.pure true) fun _ => .ite Iff.rfl (fun _ => .pure _) fun _ =>
    .bind (.pure true) fun _ => .pure _

/-- Shapes are compared alike in both orders; two that differ leave the question open. -/
theorem sameShape_mirrors (n : Nat) (h1 : t.Tame U ty1) (h2 : t.Tame U ty2) : Mirrors t
    k (sameShape (cfg.fueled n) (Q n) ty1 ty2) fun m => sameShape (cfg.fueled m) (Q m) ty2 ty1 := by
  cases h1 <;> cases h2 <;> try exact .pure none
  case ref.ref path1 _ each1 applied1 _ _ _ path2 _ each2 applied2 =>
    exact sameRefs_mirrors hq n path1 path2 each1 each2 applied1 applied2
  case ref.single path1 _ _ _ _ _ path2 _ =>
    exact settledIf_mirrors (singleMatchesModule_mirrors hq n _ _ path2 path1 _)
  case single.ref path1 _ _ _ _ path2 _ _ _ =>
    exact settledIf_mirrors (singleMatchesModule_mirrors hq n _ _ path1 path2 _)
  case single.single path1 _ _ _ path2 _ =>
    exact settledIf_mirrors (sameEntity_mirrors hq n _ _ path1 path2)
  case this.this s1 _ _ s2 _ _ =>
    show Mirrors t k (settledIf (pure (s1 == s2))) fun _ => settledIf (pure (s2 == s1))
    rw [show (s1 == s2) = (s2 == s1) from BEq.comm]
    exact settledIf_mirrors (.pure _)
  case const.const v1 _ v2 _ =>
    show Mirrors t k (pure (some (v1 == v2))) fun _ => pure (some (v2 == v1))
    rw [show (v1 == v2) = (v2 == v1) from BEq.comm]
    exact .pure _
  case refined.refined each1 _ _ _ each2 => exact sameRefined_mirrors hq n _ _ each1 each2
  case nullary.nullary inner1 _ inner2 => exact (hq n inner1 inner2).bind fun _ => .pure _
  case bounds.bounds lower1 upper1 _ _ lower2 upper2 =>
    refine (hq n lower1 lower2).bind fun _ => .ite Iff.rfl (fun _ => .pure _) fun _ => ?_
    exact (hq n upper1 upper2).bind fun _ => .pure _
  case notNull.notNull inner1 _ inner2 => exact settledIf_mirrors (hq n inner1 inner2)

/-! ## Annotations, paths and aliases -/

omit hq in
theorem annotationsConform_reads (reads : cfg.annotations.Reads) (t : SymbolTable) (l r : Ty) :
    ∃ b, ∀ m, 0 ≤ m → Answers t k (annotationsConform (cfg.fueled m) l r) b := by
  obtain ⟨b, run⟩ := reads l r t
  unfold annotationsConform
  by_cases check : cfg.policy.checkAnnotations = true
  · refine ⟨b, fun m _ s hs => ⟨s, ?_, .refl hs.table⟩⟩
    rw [if_pos (show (cfg.fueled m).policy.checkAnnotations = true from check),
      onTable, EStateM.run, show (cfg.fueled m).annotations
      l r s.table = .ok b s.table from run s.table hs.table.records]
  · refine ⟨true, fun m _ s hs => ⟨s, ?_, .refl hs.table⟩⟩
    rw [if_neg (show ¬ (cfg.fueled m).policy.checkAnnotations = true from check)]
    rfl

variable (closed : t.TameDeclarations U) (layered : t.Layered) (reads : cfg.annotations.Reads)
include closed layered

theorem samePathEnds_mirrors (n : Nat) (h1 : t.Tame U ty1)
    (h2 : t.Tame U ty2) : Mirrors t k (samePathEnds (cfg.fueled n) (Q n) ty1 ty2) fun m =>
    samePathEnds (cfg.fueled m) (Q m) ty2 ty1 := by
  refine .onTable_swap (followPathUpTo_persists closed layered _ h1)
    (followPathUpTo_persists closed layered _ h2) fun end1 end2 hend1 hend2 =>
    .ite ?_ (fun _ => .pure false) fun _ => hq n hend1 hend2
  rw [Bool.and_comm]

theorem sameExpanded_mirrors (n : Nat) (h1 : t.Tame U ty1)
    (h2 : t.Tame U ty2) : Mirrors t k (sameExpanded (cfg.fueled n) (Q n) ty1 ty2) fun m =>
    sameExpanded (cfg.fueled m) (Q m) ty2 ty1 := by
  refine .onTable_swap (expand_persists closed layered h1) (expand_persists closed layered h2)
    fun norm1 norm2 hnorm1 hnorm2 => .ite ?_ (fun _ => .pure false) fun _ => hq n hnorm1 hnorm2
  rw [Bool.and_comm]

omit hq in
theorem isPackagePrefix_mirrors (n : Nat) (h : t.Tame U ty) :
    Mirrors t k (isPackagePrefix (cfg.fueled n) ty) fun m => isPackagePrefix (cfg.fueled m) ty := by
  refine .onTable (typeSymbol_persists closed layered h) fun s _ => ?_
  exact .readTable_bind (fun t' ht' => by rw [ht'.get_eq])
    (fun m t' ht' => by rw [ht'.get_eq]) (.pure _)

include reads

theorem sameOtherwise_mirrors (n : Nat) (h1 : t.Tame U ty1)
    (h2 : t.Tame U ty2) : Mirrors t k (sameOtherwise (cfg.fueled n) (Q n) ty1 ty2) fun m =>
    sameOtherwise (cfg.fueled m) (Q m) ty2 ty1 := by
  have annotated : Mirrors t k
      (do
        if !(← annotationsConform (cfg.fueled n) ty1 ty2) then return false
        if !(← annotationsConform (cfg.fueled n) ty2 ty1) then return false
        (Q n).same ty1.withoutAnnotations ty2.withoutAnnotations)
      (fun m => do
        if !(← annotationsConform (cfg.fueled m) ty2 ty1) then return false
        if !(← annotationsConform (cfg.fueled m) ty1 ty2) then return false
        (Q m).same ty2.withoutAnnotations ty1.withoutAnnotations) := by
    obtain ⟨b, there⟩ := annotationsConform_reads (k := k) reads t ty1 ty2
    obtain ⟨b', back⟩ := annotationsConform_reads (k := k) reads t ty2 ty1
    have asked := hq n h1.withoutAnnotations h2.withoutAnnotations
    refine .after_left (.inr ⟨b, there n (Nat.zero_le n), .after_right back ?_⟩)
    cases b with
    | false =>
      cases b' with
      | false => exact .pure false
      | true => exact .after_right there (.pure false)
    | true =>
      refine .after_left (.inr ⟨b', back n (Nat.zero_le n), ?_⟩)
      cases b' with
      | false => exact .pure false
      | true => exact .after_right there asked
  have others : Mirrors t k
      (do
        if ty1.isSingleton && ty2.isSingleton then
          if ← samePathEnds (cfg.fueled n) (Q n) ty1 ty2 then return true
        sameExpanded (cfg.fueled n) (Q n) ty1 ty2)
      (fun m => do
        if ty2.isSingleton && ty1.isSingleton then
          if ← samePathEnds (cfg.fueled m) (Q m) ty2 ty1 then return true
        sameExpanded (cfg.fueled m) (Q m) ty2 ty1) := by
    have expanded : Mirrors t k (sameExpanded (cfg.fueled n) (Q n) ty1 ty2) fun m =>
      sameExpanded (cfg.fueled m) (Q m) ty2 ty1 :=
      sameExpanded_mirrors hq closed layered n h1 h2
    refine .ite (by rw [Bool.and_comm]) (fun _ => ?_) fun _ => expanded
    exact (samePathEnds_mirrors hq closed layered n h1 h2).bind fun b =>
      .ite Iff.rfl (fun _ => .pure true) fun _ => expanded
  cases h1 <;> cases h2 <;> first | exact annotated | exact others

theorem sameStep_mirrors (n : Nat) (h1 : t.Tame U ty1) (h2 : t.Tame U ty2) : Mirrors
    t k (sameStep (cfg.fueled n) (Q n) ty1 ty2) fun m => sameStep (cfg.fueled m) (Q m) ty2 ty1 := by
  unfold sameStep
  refine .ite ?_ (fun _ => .pure true) fun distinct => .ite ?_ (fun _ => .pure false) fun _ => ?_
  · simp only [Bool.or_eq_true, decide_eq_true_eq, eq_comm (a := ty1)]
    tauto
  · rw [Bool.or_comm]
  · by_cases none1 : ty1 = .noPrefix
    · have none2 : ty2 ≠ .noPrefix := fun none2 => distinct (by simp [none1, none2])
      simp only [if_pos none1, if_neg none2]
      exact isPackagePrefix_mirrors closed layered n h2
    · by_cases none2 : ty2 = .noPrefix
      · simp only [if_neg none1, if_pos none2]
        exact isPackagePrefix_mirrors closed layered n h1
      · simp only [if_neg none1, if_neg none2]
        refine (sameShape_mirrors hq n h1 h2).bind fun answer => ?_
        cases answer with
        | some b => exact .pure b
        | none => exact sameOtherwise_mirrors hq closed layered reads n h1 h2

end Rules

namespace Config

variable {t : SymbolTable} {U : SymbolId → Prop}

theorem queriesUpTo_mirrors (closed : t.TameDeclarations U) (layered : t.Layered)
    {cfg : Config} (reads : cfg.annotations.Reads) (k n : Nat) {a b : Ty} (ha : t.Tame U a)
    (hb : t.Tame U b) : Mirrors t k (((cfg.fueled n).queriesUpTo k).same a b) fun m =>
    ((cfg.fueled m).queriesUpTo k).same b a := by
  induction k generalizing n a b with
  | zero => exact .refused
  | succ k ih => exact (sameStep_mirrors (fun n => ih n) closed layered reads n ha hb).query

end Config

/-! ## Checked declarations -/

namespace SymbolTable

variable (t : SymbolTable) (us : List SymbolId)

/-- Types of a nesting below the given one that are tame. -/
def isTame : Nat → Ty → Bool
  | 0, _ => false
  | k + 1, ty =>
    match ty with
    | .noType | .noPrefix | .error | .wildcard | .dangling _ => true
    | .const v => isTame k (Known.constantType v)
    | .this s => us.contains s && isTame k (t.typeRefOf s)
    | .single pre s => isTame k pre && us.contains s
    | .ref pre s args => isTame k pre && us.contains
      s && args.all (isTame k) && (!args.isEmpty || (t.tparams s).isEmpty)
    | .refined parents decls cls => decls.isEmpty && us.contains cls && parents.all (isTame k)
    | .annotated _ body | .nullary body | .notNull body => isTame k body
    | .bounds lo hi => isTame k lo && isTame k hi
    | _ => false

variable {t us}

theorem tame_of_check (h : t.isTame us k ty = true) : t.Tame (· ∈ us) ty := by
  induction k generalizing ty with
  | zero => cases h
  | succ k ih =>
    cases ty with
    | noType | noPrefix | error | wildcard | dangling => constructor
    | const | annotated | nullary | notNull =>
      constructor
      exact ih h
    | this s =>
      simp only [isTame, Bool.and_eq_true, List.contains_iff_mem] at h
      exact .this h.1 (ih h.2)
    | single pre s =>
      simp only [isTame, Bool.and_eq_true, List.contains_iff_mem] at h
      exact .single (ih h.1) h.2
    | ref pre s args =>
      simp only [isTame, Bool.and_eq_true, List.contains_iff_mem, List.all_eq_true] at h
      refine .ref (ih h.1.1.1) h.1.1.2 (fun a mem => ih (h.1.2 a mem)) fun none => ?_
      simpa [none] using h.2
    | refined parents decls cls =>
      simp only [isTame, Bool.and_eq_true, List.contains_iff_mem,
        List.all_eq_true, List.isEmpty_iff] at h
      obtain ⟨⟨rfl, named⟩, each⟩ := h
      exact .refined named fun p mem => ih (each p mem)
    | bounds lo hi =>
      simp only [isTame, Bool.and_eq_true] at h
      exact .bounds (ih h.1) (ih h.2)
    | _ => cases h

variable (t us)

/-- The declarations of the symbols are tame, of a nesting below the given one. -/
def ChecksTame (k : Nat) : Prop :=
  ∀ s ∈ us, t.isTame us k (t.info s) = true ∧ (t.get s).parents.all
    (t.isTame us k) = true ∧ ((t.get s).isAbstractType = true →
    (t.isTame us k (t.boundsOf s).1 && t.isTame us k (t.boundsOf s).2) = true)

instance (k : Nat) : Decidable (t.ChecksTame us k) := inferInstanceAs (Decidable (∀ _ ∈ _, _))

variable {t us}

theorem ChecksTame.tameDeclarations (h : t.ChecksTame us k) : t.TameDeclarations (· ∈ us) := by
  refine ⟨fun hs => tame_of_check (h _ hs).1, fun hs p hp => ?_, fun hs abstract => ?_⟩
  · exact tame_of_check (List.all_eq_true.1 (h _ hs).2.1 p hp)
  · obtain ⟨lower, upper⟩ := Bool.and_eq_true_iff.1 ((h _ hs).2.2 abstract)
    exact ⟨tame_of_check lower, tame_of_check upper⟩

/-- `A[X]` with the given parents and a member `T = X`, and `B[Y] extends A[Int]` with a member `U =
Int`. Their identifiers are 26, 30, 28 and 31. -/
def projections (parents : List Ty) : SymbolTable := SymM.after (do
  let pkg ← newPackage Known.rootClass "projections"
  let a ← newClass pkg "A" .empty
  let x ← newTypeParam a "X" .invariant
  let b ← newClass pkg "B" .empty
  let y ← newTypeParam b "Y" .invariant
  modify fun t => (t.setTParams a [x]).setParents a parents
  modify fun t => (t.setTParams b [y]).setParents b [.ref (.this pkg) a [Known.scalaRef Known.int]]
  let member ← newAliasType a "T"
  SymM.setInfo member (.ref .noPrefix x [])
  let member ← newAliasType b "U"
  SymM.setInfo member (Known.scalaRef Known.int)) .initial

end SymbolTable

namespace Config

variable {t : SymbolTable} {U : SymbolId → Prop}

/-- What a question about types without binders answers is, with enough fuel, the answer to the
mirrored question, asked on the same level over the same declarations. No class is its own base
class, and what is remembered is right. -/
theorem isSameType_symmetric (cfg : Config) (reads : cfg.annotations.Reads)
    (layered : t.Layered) (closed : t.TameDeclarations U)
    {a b : Ty} (ha : t.Tame U a) (hb : t.Tame U b) {s s' : CheckState}
    (hs : t.Computed s.table) (hs' : t.Computed s'.table) (level : levelsLeft s = levelsLeft s')
    {answer : Bool} {s1 : CheckState} (run : cfg.isSameType a b s = .ok answer s1) :
    (∃ bound, ∀ fuel, bound ≤ fuel → ∃ s2, (cfg.fueled fuel).isSameType b a s' = .ok answer s2) ∧
      ∀ answer' s2, cfg.isSameType b a s' = .ok answer' s2 → answer' = answer := by
  have mirrored : ∀ {n : Nat} {a b : Ty} {s s' : CheckState} {answer : Bool} {s1 : CheckState},
      t.Tame U a → t.Tame U b → t.Computed s.table → t.Computed s'.table → levelsLeft s = levelsLeft
      s' → (cfg.fueled n).isSameType a b s = .ok answer s1 → ∃ bound, ∀ fuel, bound ≤ fuel →
      ∃ s2, (cfg.fueled fuel).isSameType b a s' = .ok answer s2 := by
    intro n a b s s' answer s1 ha hb hs hs' level run
    obtain ⟨-, bound, again⟩ := queriesUpTo_mirrors
      closed layered reads (levelsLeft s) n ha hb s ⟨hs, rfl⟩ answer s1 run
    refine ⟨bound, fun fuel enough => ?_⟩
    obtain ⟨s2, run', -⟩ := again fuel enough s' ⟨hs', level.symm⟩
    refine ⟨s2, ?_⟩
    show ((cfg.fueled fuel).queriesUpTo (levelsLeft s')).same b a s' = _
    rw [← level]
    exact run'
  obtain ⟨bound, there⟩ := mirrored (n := cfg.fuel) ha hb hs hs' level run
  refine ⟨⟨bound, there⟩, fun answer' s2 run' => ?_⟩
  -- with enough fuel the first question has both answers
  obtain ⟨s3, back⟩ := there bound (Nat.le_refl _)
  obtain ⟨bound1, again⟩ := mirrored hb ha hs' hs level.symm back
  obtain ⟨bound2, again'⟩ := mirrored (n := cfg.fuel) hb ha hs' hs level.symm run'
  obtain ⟨s4, first⟩ := again (max bound1 bound2) (Nat.le_max_left ..)
  obtain ⟨s5, second⟩ := again' (max bound1 bound2) (Nat.le_max_right ..)
  rw [first] at second
  cases second
  rfl

/-- `B[String]#T` and `A[String]#U`. -/
def selected : Ty × Ty :=
  let applied (c : SymbolId) : Ty := .ref (.this ⟨24⟩) c [Known.javaLangRef Known.string]
  (.ref (applied ⟨28⟩) ⟨30⟩ [], .ref (applied ⟨26⟩) ⟨31⟩ [])

/-- Both selections are `Int`, in either order. -/
theorem selections_same_in_either_order :
    let cfg : Config := ⟨{}, .typeConstraints, 12⟩
    let t := SymbolTable.projections [Known.objectType]
    let us := (List.range t.size).map SymbolId.mk
    let s : CheckState := .fresh {} t 0 #[]
    t.Layered ∧ t.TameDeclarations (· ∈ us) ∧ t.Tame (· ∈ us) selected.1 ∧
    t.Tame (· ∈ us) selected.2 ∧ t.Computed s.table ∧
      (∃ s1, cfg.isSameType selected.1 selected.2 s = .ok true s1) ∧
      ∃ bound, ∀ fuel, bound ≤ fuel → ∃ s2, (cfg.fueled fuel).isSameType
        selected.2 selected.1 s = .ok true s2 := by
  intro cfg t us s
  have facts : t.linearized = [] ∧ (t.kind .none).isClass = false ∧ t.size ≤
      Limits.linearizationDepth ∧ (∀ i < t.size, ∀ p ∈ (t.get ⟨i⟩).parents, (t.parentClass p).val <
      i) ∧ t.ChecksTame us 12 ∧ t.isTame us 12 selected.1 = true ∧ t.isTame
      us 12 selected.2 = true ∧ (cfg.isSameType selected.1 selected.2).answer? s = some true := by
    decide +kernel
  clear_value t
  obtain ⟨fresh, absent, size, down, declared, first, second, answer⟩ := facts
  have layered : t.Layered := layered_of_descending absent size down
  have computed : t.Computed s.table := .of_forgotten fresh
  have run := CheckM.run_of_answer? answer
  obtain ⟨mirrored, -⟩ := cfg.isSameType_symmetric AnnotationChecker.typeConstraints_reads layered
    declared.tameDeclarations (tame_of_check first) (tame_of_check second) computed computed rfl run
  exact ⟨layered, declared.tameDeclarations, tame_of_check first,
    tame_of_check second, computed, ⟨_, run⟩, mirrored⟩

/-- Where `A` and `B` extend each other, the first selection is found to be the second, but not the
other way round. -/
theorem cyclic_parents_break_symmetry :
    let cfg : Config := ⟨{}, .typeConstraints, 12⟩
    let t := SymbolTable.projections [.ref (.this ⟨24⟩) ⟨28⟩ [Known.scalaRef Known.int]]
    let us := (List.range t.size).map SymbolId.mk
    let s : CheckState := .fresh {} t 0 #[]
    t.IsProperBase ⟨26⟩ ⟨26⟩ ∧ t.TameDeclarations (· ∈ us) ∧
    t.Tame (· ∈ us) selected.1 ∧ t.Tame (· ∈ us) selected.2 ∧
      t.Computed s.table ∧ (cfg.isSameType selected.1 selected.2).answer? s = some true ∧
      (cfg.isSameType selected.2 selected.1).answer? s = some false := by
  intro cfg t us s
  have facts : t.linearized = [] ∧ (t.get ⟨26⟩).isClass = true ∧ (t.get ⟨28⟩).isClass = true ∧
      (t.get ⟨26⟩).parents.map t.parentClass = [⟨28⟩] ∧ (t.get ⟨28⟩).parents.map
      t.parentClass = [⟨26⟩] ∧ t.ChecksTame us 12 ∧ t.isTame us 12 selected.1 = true ∧
      t.isTame us 12 selected.2 = true ∧ (cfg.isSameType selected.1 selected.2).answer?
      s = some true ∧ (cfg.isSameType selected.2 selected.1).answer? s = some false := by
    decide +kernel
  clear_value t
  obtain ⟨fresh, a, b, up, down, declared, first, second, answer, mirrored⟩ := facts
  have above : t.DirectBase ⟨26⟩ ⟨28⟩ := (directBase_iff a).2 ⟨up ▸ List.mem_cons_self, rfl, b⟩
  have below : t.DirectBase ⟨28⟩ ⟨26⟩ := (directBase_iff b).2 ⟨down ▸ List.mem_cons_self, rfl, a⟩
  exact ⟨.head above (.single below), declared.tameDeclarations,
    tame_of_check first, tame_of_check second, .of_forgotten fresh, answer, mirrored⟩

end Config

end Conformance

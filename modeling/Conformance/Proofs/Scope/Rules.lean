import Conformance.Proofs.Scope.Upkeep
import Conformance.Proofs.Session

/-! # Rules keep a store invariant

What writes to variables in the course of a step is a bound or a choice of the solver; hence queries
keep what their rules keep, at any level of nesting. -/

namespace Conformance

variable {ty : Ty}

open CheckM

/-- The contract of a question: either answer will do. -/
abbrev Asked (sc : Scope) (J : StoreInv) (n : Nat) {α : Type} (x : CheckM α) : Prop :=
    Upheld sc J n x fun _ _ => True

/-- Queries about types in scope keep the invariant. -/
structure Queries.Upheld (sc : Scope) (J : StoreInv) (q : Queries) : Prop where
  sub {n : Nat} {l r : Ty} (hl : sc.In n l) (hr : sc.In n r)
    (depth : Depth) : Asked sc J n (q.sub l r depth)
  same {n : Nat} {l r : Ty} (hl : sc.In n l) (hr : sc.In n r) : Asked sc J n (q.same l r)
  undoes : Queries.InStep (fun x _ => Keeps Undoes x) q q

theorem Queries.Upheld.and {sc : Scope} {J K : StoreInv} {q : Queries} (hq : q.Upheld sc J)
    (hK : Conformance.Upheld.Lasting K) : q.Upheld sc fun t vars => J t vars ∧ K t vars :=
  ⟨fun hl hr depth => (hq.sub hl hr depth).and hK, fun hl hr => (hq.same hl hr).and hK, hq.undoes⟩

/-- The annotation checker writes only what it entered. -/
def AnnotationChecker.Safe (sc : Scope) (check : AnnotationChecker) : Prop :=
  ∀ {b n : Nat} {l r : Ty}, sc.In n l → sc.In n r → Conformance.Safe sc b n (check l r) fun _ _ =>
    True

/-- The annotation checker also keeps `G`. -/
def AnnotationChecker.Keeping (sc : Scope) (G : SymbolTable → Prop)
    (check : AnnotationChecker) : Prop :=
  ∀ {b n : Nat} {l r : Ty}, sc.In n l → sc.In n r →
    Conformance.Keeping sc G b n (check l r) fun _ _ => True

theorem AnnotationChecker.Safe.keeping {sc : Scope} {check : AnnotationChecker}
    (h : check.Safe sc) : check.Keeping sc fun _ => True := fun hl hr => (h hl hr).keeping

section Rules

variable {sc : Scope} {free : VarId → Prop} {J : StoreInv} {G : SymbolTable → Prop}
  (hu : Upkeep sc free J G) {cfg : Config} {q : Queries} (hq : q.Upheld sc J) {n : Nat}

include hu

theorem instantiate_upheld (hty : sc.In n ty) : Upheld sc J n (instantiate cfg ty) fun m ty =>
    sc.In m ty := by
  intro s ht hn hJ
  have run : ∀ inst? : VarId → Option Ty, (∀ v, sc.In s.table.size v →
      sc.In s.table.size (inst? v)) → Ends sc J s (fun m ty => sc.In m ty)
      (onTable (instantiateWith inst? cfg.fuel [] ty) s) := fun inst? hinst =>
    onTable_upheld hu (fun b => instantiateWith_walks (keeping_walk hu.owns b)
      hinst (show ∀ v, inst? (Relabeling.same.move v) = Relabeling.same.move (inst? v) by simp)
      cfg.fuel [] _ ty (Nat.le_refl _) (hty.mono hn)) s ht (Nat.le_refl _) hJ
  refine run _ fun v hv inst hinst => ?_
  obtain ⟨i, hi, hinst⟩ := Option.bind_eq_some_iff.1 hinst
  exact (hu.info hJ hv hi).2.2.2 inst hinst

/-- Rules that write to no variable keep a store invariant, and only a single run is looked at. -/
theorem upheld_walk : CheckWalk sc .same (fun _ _ => True)
    (fun b _ _ n x _ Q => Keeping sc G b n x Q) fun n x _ Q => Upheld sc J n x Q where
  pure _ := .pure
  bind := .bind
  tables := keeping_walk hu.owns
  onTable := onTable_upheld hu
  readTable_bind hf s ht hn hJ :=
    hf s.table s.table ht.at (Relabeling.reads_same _) hn s ht (Nat.le_refl _) hJ
  exhausted := .throw _
  varInfo? := varInfo?_upheld hu
  instantiate _ _ := instantiate_upheld hu
  knownVars _ _ ht _ hJ := ⟨⟨ht, .refl _ _, .refl _, hJ⟩, fun _ => mem_of_knownVars⟩

theorem AnnotationChecker.Keeping.walks (ha : cfg.annotations.Keeping sc G) : cfg.annotations.Walks
    sc .same fun n x _ Q => Upheld sc J n x Q := fun hl hr => onTable_upheld hu fun _ => ha hl hr

omit hu in
theorem Queries.Upheld.walks (hq : q.Upheld sc J) :
    q.Walks sc .same (fun n x _ Q => Conformance.Upheld sc J n x Q) q :=
  ⟨hq.sub, hq.same⟩

include hq

/-! ## Variables -/

theorem registerBound_upheld (side : Side) {v : VarId} (hv : sc.In n v) (hty : sc.In n ty) :
    Asked sc J n (registerBound cfg q side v ty) := by
  refine varInfo?_bind hv hu (.any _) fun i m hm hi => ?_
  have atLevel := level_lasting v i.level
  have hq' := hq.and atLevel
  refine .ite (checkAgainst_walks hq'.walks side (hty.mono hm) hi.1) ?_
  cases hinst : i.constraint.inst with
  | some inst => exact checkAgainst_walks hq'.walks side (hty.mono hm) (hi.2.2.2 inst hinst)
  | none =>
    refine readTable_bind_since fun t vars0 ht hJ0 hn => ?_
    by_cases relatable : t.isRelatable i.level ty = true
    · rw [relatable]
      have hu' := (hu.and atLevel).and (since_lasting t)
      have hty' := hty.mono (Nat.le_trans hm hn)
      refine Upheld.bind (boundFor_walks (upheld_walk hu') hty') fun bound k hk hbound => ?_
      -- the bound is in scope and the level of the variable admits it, in later tables too
      have inScope : sc.In k bound := by
        obtain rfl | rfl | rfl := hbound
        · exact hty'.mono hk
        · exact sc.in_anyType
        · exact sc.in_nothingType
      refine (addBound_upheld hu' side (hv.mono (by omega)) inScope ?_).bind fun _ _ _ _ => .any _
      rintro t' vars i' ⟨⟨_, i0, hi0, level⟩, since⟩ hi'
      obtain rfl : i0 = i' := Option.some.inj (hi0.symm.trans hi')
      refine .inr ?_
      obtain rfl | rfl | rfl := hbound
      · exact .inr (.inr ⟨t, vars0, ht, ⟨hJ0, .refl _ _⟩, hty', since, level ▸ relatable⟩)
      · exact .inl rfl
      · exact .inr (.inl rfl)
    · rw [Bool.not_eq_true] at relatable
      rw [relatable]
      exact .any _

omit hu in
theorem registerEquality_upheld (hu : Instantiating sc free J G) {v : VarId} (hv : sc.In n v)
    (hty : sc.In n ty) (onLeft : Bool) : Asked sc J n (registerEquality q v ty onLeft) := by
  refine varInfo?_bind hv hu.toUpkeep (.any _) fun i m hm hi => ?_
  have atLevel := level_lasting v i.level
  have hq' := hq.and atLevel
  have hty' := hty.mono hm
  refine .ite (hq'.same hty' hi.1) ?_
  cases hinst : i.constraint.inst with
  | some inst =>
    have hinst := hi.2.2.2 inst hinst
    exact .ite (hq'.same hinst hty') (hq'.same hty' hinst)
  | none =>
    refine readTable_bind_since fun t vars0 ht hJ0 hn => ?_
    by_cases relatable : t.isRelatable i.level ty = true
    · rw [relatable]
      have hu' := (hu.and atLevel).and (since_lasting t)
      have hq' := hq'.and (since_lasting t)
      have hlo : sc.In t.size i.constraint.lo := hi.2.1.mono hn
      have hhi : sc.In t.size i.constraint.hi := hi.2.2.1.mono hn
      have hty' := hty'.mono hn
      refine Upheld.bind (.allM fun lo mem k hk => hq'.sub ((hlo lo mem).mono hk) (hty'.mono hk) _)
        fun _ k hk _ => .ite (.any _) ?_
      refine Upheld.bind (.allM fun hi mem k' hk' => hq'.sub (hty'.mono (by omega))
        ((hhi hi mem).mono (Nat.le_trans hk hk')) _) fun _ k' hk' _ => .ite (.any _) ?_
      refine (setInst_upheld hu' (hv.mono (by omega)) (hty'.mono (by omega)) ?_).bind fun _ _ _ _ =>
        .any _
      rintro t' vars i' ⟨⟨_, i0, hi0, level⟩, since⟩ hi'
      obtain rfl : i0 = i' := Option.some.inj (hi0.symm.trans hi')
      exact .inr (.inr (.inr ⟨t, vars0, ht, ⟨hJ0, .refl _ _⟩, hty', since, level ▸ relatable⟩))
    · rw [Bool.not_eq_true] at relatable
      rw [relatable]
      exact .any _
/-! ## Groups of variables -/

/-- The contract of solving, whose errors are answers. -/
abbrev Solved (sc : Scope) (J : StoreInv) (n : Nat)
    {α : Type} [Movable α] (x : SolveM α) (Q : Nat → α → Prop) : Prop :=
  Attempts (fun n x _ Q => Upheld sc J n x Q) n x x Q

omit hu hq in
/-- Of the two runs only the first is looked at. -/
theorem solved_iff {α : Type} [Movable α] {x y : SolveM α} {Q : Nat → α → Prop} :
    Solved sc J n x Q ↔ Attempts (fun n x _ Q => Upheld sc J n x Q) n x y Q := Iff.rfl

/-- Choosing an instance for a free variable and entering it keeps the invariant. -/
def Chooses (sc : Scope) (free : VarId → Prop) (J : StoreInv) (cfg : Config) (q : Queries) : Prop :=
  ∀ {n : Nat} (g : SolveGroup) (depth : Depth) {u : Unknown} (progress : List Progress), sc.In
    n u.var → free u.var → Solved sc J n (enterChoice cfg q g depth u progress) fun _ _ => True

omit hu in
theorem chooses_of_instantiating (hu : Instantiating sc free J G) : Chooses sc free J cfg q := by
  intro n g depth u progress hvar hfree
  have walk := upheld_walk hu.toUpkeep
  refine walk.attempts.bind (chooseInst_walks walk hq.walks depth hvar) fun inst m hm hinst => ?_
  refine walk.attempts.bind (walk.attempt (setInst_upheld hu (hvar.mono hm) hinst fun _ _ =>
    .inl hfree)) fun _ _ _ _ => ?_
  exact walk.attempts.pure (by simp) fun _ _ => trivial

omit hu hq in
theorem keepVar_upheld (v : VarId) : Asked sc J n (updateVar v fun info => info) := by
  intro s ht _ hJ
  have same : (s.vars.update v fun info => info).vars = s.vars.vars :=
    Array.ext_getElem? fun i => by simp [UndoLog.getElem?_update]
  exact ⟨⟨ht, .refl _ _, same ▸ .refl _, by show J s.table _; rw [same]; exact hJ⟩, trivial⟩

variable (hc : Chooses sc free J cfg q)
include hc

theorem solveOne_upheld {group : SolveGroup} (depth : Depth)
    (k : Nat) (progress : List Progress) {u : Unknown × Nat} (hg : sc.In n group.unknowns)
    (hfree : ∀ w ∈ group.unknowns, free w.var) (hmem : u.1 ∈ group.unknowns) :
    Solved sc J n (solveOne cfg q group depth k progress u) fun _ _ => True := by
  refine solved_iff.2 (solveOne_walks (upheld_walk hu)
    hq.walks (fun {_ v} informative side bound hv hfree hbound => ?_)
    (fun group _ progress hvar hfree => solved_iff.1 (hc group depth progress hvar hfree))
    k hg hfree progress (hg _ hmem) (hfree _ hmem))
  cases informative with
  | true => exact addBound_upheld hu side hv hbound fun _ _ => .inl hfree
  | false => exact keepVar_upheld v

/-! ## Steps -/

theorem conformsToExistential_upheld {ty : Ty} (hty : sc.In n ty) {quantified : List SymbolId}
    (hquantified : sc.In n quantified) {body : Ty} (hbody : sc.In n body) (depth : Depth) :
    Asked sc J n (conformsToExistential cfg q ty quantified body depth) :=
  conformsToExistential_walks (upheld_walk hu) hq.walks
    (freshVar_upheld hu) (fun _ k progress _ hg hfree hmem =>
    solved_iff.1 (solveOne_upheld hu hq hc depth k progress hg hfree hmem)) hty hquantified hbody

omit hc in
theorem speculated_upheld {l r : Ty} (hl : sc.In n l)
    (hr : sc.In n r) : Asked sc J n (speculate (q.same l r)) :=
  speculate_upheld hu (hq.undoes.same l r) (hq.same hl hr)

theorem subStep_upheld (ha : cfg.annotations.Keeping sc G) {ty1 ty2 : Ty} (h1 : sc.In n ty1)
    (h2 : sc.In n ty2) (depth : Depth) : Asked sc J n (subStep cfg q ty1 ty2 depth) :=
  subStep_walks (upheld_walk hu) hq.walks (ha.walks hu)
    (speculated_upheld hu hq) (fun depth hty hquantified hbody =>
    conformsToExistential_upheld hu hq hc hty hquantified hbody depth)
    h1 h2 (fun side hv hty => registerBound_upheld hu hq side hv hty) atDeeperLevel_upheld depth

omit hu hc hq in
/-- Queries at any level of nesting keep what their rules keep. -/
theorem Config.queriesUpTo_upheld (hu : Instantiating sc free J G)
    (ha : cfg.annotations.Keeping sc G) (k : Nat) : (cfg.queriesUpTo k).Upheld sc J := by
  have undoes := (cfg.queriesUpTo_transactional k).undoes
  have hu' := hu.toUpkeep
  induction k with
  | zero =>
    exact ⟨fun _ _ _ => refused_upheld hu' _ _ _, fun _ _ => refused_upheld hu' _ _ _, undoes⟩
  | succ k ih =>
    have inner := (cfg.queriesUpTo_transactional k).undoes
    have hq := ih inner
    refine ⟨fun hl hr depth => query_upheld hu' ?_ ?_ _ _ _, fun hl hr =>
      query_upheld hu' ?_ ?_ _ _ _, undoes⟩
    · exact subStep_undoes cfg inner _ _ _
    · exact (subStep_upheld hu' hq (chooses_of_instantiating hq hu) ha hl hr depth).contained hu'
    · exact sameStep_undoes cfg inner _ _
    · exact Upheld.contained hu' (sameStep_walks (upheld_walk hu')
        hq.walks (ha.walks hu') hl hr fun onLeft hv hty _ =>
        registerEquality_upheld hq hu hv hty onLeft)

/-! ## Operations -/

namespace Operation

/-- The operation names only what a table of size `n` may name; the variables handed to a solver
apart. -/
def Within (sc : Scope) (n : Nat) : Operation → Prop
  | .freshVar origin constraint => sc.In n origin ∧ sc.In n constraint
  | .isSubtype l r | .isSubtypeDepth l r _ | .isSameType l r | .isDifferentType l r =>
    sc.In n l ∧ sc.In n r
  | .isSameTypes ls rs => sc.In n ls ∧ sc.In n rs
  | .solve _ tparams _ _ _ => sc.In n tparams
  | .isWithinBounds pre owner tparams targs => sc.In n pre ∧
    sc.In n owner ∧ sc.In n tparams ∧ sc.In n targs
  | .specializesSym ty s _ => sc.In n ty ∧ sc.In n s
  | .lub types | .glb types => sc.In n types
  | .instantiate ty => sc.In n ty
  | .suspend _ | .resume _ | .resetStats => True

/-- The types handed to a solver. -/
def solved : Operation → List Ty
  | .solve tvars .. => tvars
  | _ => []

/-- Does the operation get its answer from queries or from the solver? -/
def isQuestion : Operation → Bool
  | .freshVar .. | .suspend _ | .resume _ | .resetStats => false
  | _ => true

theorem asking_upheld {op : Operation} (hop : op.Within sc n)
    (hsolved : ∀ v, Ty.var v ∈ op.solved → sc.var v ∧ free v)
    (hask : op.isQuestion = true) : Asked sc J n (op.asking cfg q) := by
  -- what is answered does not matter
  have asked : ∀ {Q : Nat → op.Answer → Prop}, Upheld sc J n (op.asking cfg q) Q →
    Asked sc J n (op.asking cfg q) :=
    fun upheld s ht hn hJ => (upheld s ht hn hJ).imp id fun _ _ => trivial
  have walk := upheld_walk hu
  cases op with
  | isSubtype l r => exact hq.sub hop.1 hop.2 _
  | isSubtypeDepth l r depth => exact hq.sub hop.1 hop.2 depth
  | isSameType l r => exact hq.same hop.1 hop.2
  | isSameTypes ls rs => exact sameAll_walks walk hq.walks hop.1 hop.2
  | isDifferentType l r => exact (speculated_upheld hu hq hop.1 hop.2).bind fun _ _ _ _ => .any _
  | solve tvars tparams variances upper depth =>
    exact asked (solved_iff.2 (solve_walks walk hq.walks (fun _ k progress _ hg hfree hmem =>
      solved_iff.1 (solveOne_upheld hu hq hc depth k progress hg hfree hmem))
        hsolved hop variances upper))
  | isWithinBounds pre owner tparams targs =>
    exact withinBounds_walks walk hq.walks hop.1 hop.2.1 hop.2.2.1 hop.2.2.2
  | specializesSym ty member depth => exact specializes_walks walk hq.walks hop.1 hop.2 depth
  | lub types => exact asked (lubUpTo_walks walk hq.walks _ hop)
  | glb types => exact asked (glb_walks walk hq.walks hop)
  | instantiate ty => exact asked (instantiate_upheld hu hop)
  | freshVar | suspend | resume | resetStats => cases hask

end Operation

omit hu hc hq in
/-- A question keeps a store invariant that lets variables be instantiated. -/
theorem Config.run_onward (hu : Instantiating sc free J G)
    (ha : cfg.annotations.Keeping sc G) {op : Operation} {s : CheckState}
    (hop : op.Within sc s.table.size) (hsolved : ∀ v, Ty.var v ∈ op.solved → sc.var v ∧ free v)
    (hask : op.isQuestion = true) (ht : sc.Closed s.table)
    (hJ : J s.table s.vars.vars) : Onward sc J s ((cfg.run op).after s) := by
  have hq := cfg.queriesUpTo_upheld hu ha (levelsLeft s)
  rw [cfg.after_run]
  exact (Operation.asking_upheld hu.toUpkeep hq (chooses_of_instantiating hq hu)
    hop hsolved hask).onward ht (Nat.le_refl _) hJ

end Rules

end Conformance

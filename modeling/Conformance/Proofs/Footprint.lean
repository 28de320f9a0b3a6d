import Conformance.Proofs.Levels

/-! # Queries touch only the variables that their types lead to

A query reads what its types mention, what is declared of the symbols among that, and what the
variables among that hold; all of this may end up in a bound. What it leads to in this way is a
scope, with the symbols and variables that the query makes itself. The variables outside are those
that a query leaves alone, whatever it answers. Besides the declarations themselves, a query follows
owners, looks up linearizations that are remembered, and uses the known symbols without being told
of them. -/

namespace Conformance

variable {v : VarId} {info : VarInfo Ty}

/-- A symbol or a variable. -/
inductive Mention where
  | sym (s : SymbolId)
  | var (v : VarId)
deriving DecidableEq

mutual
/-- What a type mentions, itself or in a component. -/
def Ty.mentions : Ty → List Mention
  | .noType | .noPrefix | .error | .wildcard | .dangling _ | .const _ => []
  | .this s => [.sym s]
  | .single pre s => .sym s :: pre.mentions
  | .ref pre s args => .sym s :: (pre.mentions ++ Ty.mentionsAll args)
  | .refined parents decls cls => .sym cls :: (decls.map .sym ++ Ty.mentionsAll parents)
  | .exist ss body | .annotated ss body | .method ss body _ | .poly ss body =>
    ss.map .sym ++ body.mentions
  | .boundedWildcard body | .nullary body | .notNull body => body.mentions
  | .bounds lo hi => lo.mentions ++ hi.mentions
  | .var v => [.var v]

def Ty.mentionsAll : List Ty → List Mention
  | [] => []
  | ty :: tys => ty.mentions ++ Ty.mentionsAll tys
end

/-- What is declared of a symbol: type parameters, info, parents and members. -/
def SymbolRecord.declares (r : SymbolRecord) : List Mention :=
  r.tparams.map .sym ++ r.info.mentions ++ Ty.mentionsAll r.parents ++ r.decls.toList.map .sym

/-- What a variable holds: its origin, its bounds and what stands for it. -/
def VarInfo.mentions (info : VarInfo Ty) : List Mention :=
    info.origin.mentions ++ Ty.mentionsAll info.constraint.types

section Mentions

variable {Q : Mention → Prop}

mutual
theorem Ty.over_of_mentions : ∀ ty : Ty, (∀ m ∈ ty.mentions, Q m) →
    ty.Over (fun s => Q (.sym s)) fun v => Q (.var v)
  | .noType, _ | .noPrefix, _ | .error, _ | .wildcard,
    _ | .dangling _, _ | .const _, _ => by constructor
  | .this _, h => .this (h _ List.mem_cons_self)
  | .single pre _, h =>
    have ⟨hs, hpre⟩ := List.forall_mem_cons.1 h
    .single (Ty.over_of_mentions pre hpre) hs
  | .ref pre _ args, h =>
    have ⟨hs, rest⟩ := List.forall_mem_cons.1 h
    have ⟨hpre, hargs⟩ := List.forall_mem_append.1 rest
    .ref (Ty.over_of_mentions pre hpre) hs (Ty.over_of_mentionsAll args hargs)
  | .refined parents _ _, h =>
    have ⟨hcls, rest⟩ := List.forall_mem_cons.1 h
    have ⟨hdecls, hparents⟩ := List.forall_mem_append.1 rest
    .refined (Ty.over_of_mentionsAll parents hparents) (List.forall_mem_map.1 hdecls) hcls
  | .exist _ body, h | .annotated _ body, h | .method _ body _, h | .poly _ body, h => by
    obtain ⟨hss, hbody⟩ := List.forall_mem_append.1 h
    constructor
    · exact List.forall_mem_map.1 hss
    · exact Ty.over_of_mentions body hbody
  | .boundedWildcard body, h | .nullary body, h | .notNull body, h => by
    constructor
    exact Ty.over_of_mentions body h
  | .bounds lo hi, h =>
    have ⟨hlo, hhi⟩ := List.forall_mem_append.1 h
    .bounds (Ty.over_of_mentions lo hlo) (Ty.over_of_mentions hi hhi)
  | .var _, h => .var (h _ List.mem_cons_self)

theorem Ty.over_of_mentionsAll : ∀ tys : List Ty, (∀ m ∈ Ty.mentionsAll tys, Q m) →
    ∀ ty ∈ tys, ty.Over (fun s => Q (.sym s)) fun v => Q (.var v)
  | [], _ => fun _ mem => nomatch mem
  | ty :: tys, h =>
    have ⟨hty, htys⟩ := List.forall_mem_append.1 h
    List.forall_mem_cons.2 ⟨Ty.over_of_mentions ty hty, Ty.over_of_mentionsAll tys htys⟩
end

end Mentions

/-! ## What a query leads to -/

/-- What the types `l` and `r` lead to. -/
inductive CheckState.Reaches (s : CheckState) (l r : Ty) : Mention → Prop
  | left {m : Mention} (h : m ∈ l.mentions) : Reaches s l r m
  | right {m : Mention} (h : m ∈ r.mentions) : Reaches s l r m
  | declared {c : SymbolId} {m : Mention} (hc : Reaches s l r (.sym c))
    (h : m ∈ (s.table.get c).declares) : Reaches s l r m
  | held {v : VarId} {info : VarInfo Ty} {m : Mention} (hv : Reaches s l r (.var v))
    (h : s.vars.info? v = some info) (hm : m ∈ info.mentions) : Reaches s l r m
  | owner {c : SymbolId} (hc : Reaches s l r (.sym c)) : Reaches s l r (.sym (s.table.owner c))
  | known {c : SymbolId} (h : c.val < Known.count) : Reaches s l r (.sym c)
  /-- What is remembered under an identifier that is still free counts, too: a query may take the
  identifier. -/
  | linearized {c d : SymbolId} {classes : List SymbolId} (h : (c, classes) ∈ s.table.linearized)
    (hc : c.val < s.table.size → Reaches s l r (.sym c)) (hd : d ∈ classes) : Reaches s l r (.sym d)

namespace CheckState

variable (s : CheckState) (l r : Ty)

/-- What `l` and `r` lead to, and what is made from now on. -/
def reach : Scope where
  has n c := s.Reaches l r (.sym c) ∨ s.table.size ≤ c.val ∧ c.val < n
  var v := s.Reaches l r (.var v) ∨ s.vars.vars.size ≤ v.val
  base := s.table.size
  companions := False
  known h := .inl (.known h)
  mono hnm h := h.imp_right fun h => ⟨h.1, Nat.lt_of_lt_of_le h.2 hnm⟩
  fresh {n} h := .inr ⟨h, Nat.lt_succ_self n⟩
  old {n c} h := by
    rcases h with h | ⟨new, h⟩
    · exact .inl (.inl h)
    · rcases Nat.lt_succ_iff_lt_or_eq.1 h with h | h
      · exact .inl (.inr ⟨new, h⟩)
      · exact .inr (congrArg SymbolId.mk h)

variable {s l r} {n : Nat}

theorem reach_ty {ty : Ty} (h : ∀ m ∈ ty.mentions, s.Reaches l r m) : (s.reach l r).In n ty :=
  (Ty.over_of_mentions ty h).imp (fun _ => .inl) fun _ => .inl

theorem reach_tys {tys : List Ty} (h : ∀ m ∈ Ty.mentionsAll tys, s.Reaches l r m) :
    (s.reach l r).In n tys :=
  fun ty mem => (Ty.over_of_mentionsAll tys h ty mem).imp (fun _ => .inl) fun _ => .inl

theorem reach_syms {ss : List SymbolId} (h : ∀ m ∈ ss.map Mention.sym, s.Reaches l r m) :
    (s.reach l r).In n ss :=
  fun _ mem => .inl (h _ (List.mem_map_of_mem mem))

theorem reach_closed (s : CheckState) (l r : Ty) : (s.reach l r).Closed s.table := by
  have reached : ∀ {c : SymbolId}, (s.reach l r).In s.table.size c → s.Reaches l r (.sym c) := by
    intro c hc
    rcases hc with hc | ⟨new, old⟩
    · exact hc
    · exact absurd old (Nat.not_lt_of_le new)
  refine ⟨Nat.le_refl _, fun {c} hc => ?_, fun mem hc d hd => ?_⟩
  · have declared : ∀ m ∈ (s.table.get c).declares, s.Reaches l r m :=
      fun m hm => .declared (reached hc) hm
    simp only [SymbolRecord.declares, List.forall_mem_append] at declared
    obtain ⟨⟨⟨tparams, info⟩, parents⟩, decls⟩ := declared
    exact ⟨.inl (.owner (reached hc)), reach_syms tparams,
      reach_ty info, reach_tys parents, reach_syms decls, False.elim⟩
  · exact .inl (.linearized mem (fun entered => reached (hc entered)) hd)

theorem reach_info (hv : s.Reaches l r (.var v)) (hi : s.vars.info? v = some info) :
    (s.reach l r).In n info := by
  have held : ∀ m ∈ info.mentions, s.Reaches l r m := fun m hm => .held hv hi hm
  rw [VarInfo.mentions, List.forall_mem_append] at held
  exact ⟨reach_ty held.1, Constraint.in_iff.2 (reach_tys held.2)⟩

/-! ## The variables outside -/

/-- The variables that are not led to are as in `s`; the others hold what is led to. -/
structure Spares (s : CheckState) (l r : Ty) (t : SymbolTable)
    (vars : Array (VarInfo Ty)) : Prop where
  held {v : VarId} {info : VarInfo Ty} : (s.reach l r).var v →
    vars[v.val]? = some info → (s.reach l r).In t.size info
  size : s.vars.vars.size ≤ vars.size
  spared {v : VarId} : v.val < s.vars.vars.size → ¬ s.Reaches l r (.var v) →
    vars[v.val]? = s.vars.vars[v.val]?

namespace Spares

variable {t : SymbolTable} {vars : Array (VarInfo Ty)}

theorem start (s : CheckState) (l r : Ty) : s.Spares l r s.table s.vars.vars := by
  refine ⟨fun {v info} hv hi => ?_, Nat.le_refl _, fun _ _ => rfl⟩
  rcases hv with hv | hv
  · exact reach_info hv hi
  · exact absurd (Array.getElem?_eq_some_iff.1 hi).1 (Nat.not_lt_of_le hv)

theorem set (h : s.Spares l r t vars) (hv : (s.reach l r).var v)
    (hinfo : (s.reach l r).In t.size info) : s.Spares l r t (vars.setIfInBounds v.val info) := by
  refine ⟨fun {u info'} hu hi =>
    ?_, by rw [Array.size_setIfInBounds]; exact h.size, fun {u} old unreached => ?_⟩
  · rw [Array.getElem?_setIfInBounds] at hi
    split at hi
    · split at hi
      · exact Option.some.inj hi ▸ hinfo
      · cases hi
    · exact h.held hu hi
  · rw [Array.getElem?_setIfInBounds, if_neg fun same => ?_]
    · exact h.spared old unreached
    · obtain rfl : v = u := congrArg VarId.mk same
      exact hv.elim unreached fun new => absurd old (Nat.not_lt_of_le new)

theorem push (h : s.Spares l r t vars) (hinfo : (s.reach l r).In t.size info) :
    s.Spares l r t (vars.push info) := by
  have size := h.size
  refine ⟨fun {u info'} hu hi => ?_, by rw [Array.size_push]; omega, fun {u} old unreached => ?_⟩
  · rw [Array.getElem?_push] at hi
    split at hi
    · exact Option.some.inj hi ▸ hinfo
    · exact h.held hu hi
  · rw [Array.getElem?_push, if_neg (by omega)]
    exact h.spared old unreached

end Spares

theorem instantiating_spares (s : CheckState) (l r : Ty) :
    Instantiating (s.reach l r) (fun _ => True) (s.Spares l r) where
  grow _ h grown _ _ := ⟨fun hv hi => (h.held hv hi).mono grown.size_le, h.size, h.spared⟩
  info h hv hi := h.held hv hi
  bound side _ h hv hi hty _ := h.set hv ((EntersType.bound side).in_scope _ (h.held hv hi) hty)
  inst _ h hv hi hty _ := h.set hv (EntersType.inst.in_scope _ (h.held hv hi) hty)
  fresh _ _ h horigin := ⟨h.push ⟨horigin, .nil, .nil, .none⟩, .inr h.size, trivial⟩

end CheckState

/-! ## Without variables -/

def Mention.isVar : Mention → Bool
  | .sym _ => false
  | .var _ => true

/-- The type mentions no variable. -/
abbrev Ty.VarFree (ty : Ty) : Prop := ∀ m ∈ ty.mentions, m.isVar = false

/-- No declaration mentions a variable. -/
abbrev SymbolTable.VarFree (t : SymbolTable) : Prop :=
    ∀ i < t.size, ∀ m ∈ (t.get ⟨i⟩).declares, m.isVar = false

theorem SymbolTable.VarFree.get {t : SymbolTable} (h : t.VarFree) (c : SymbolId) :
    ∀ m ∈ (t.get c).declares, m.isVar = false := by
  by_cases hc : c.val < t.size
  · exact h c.val hc
  rw [get_of_size_le (Nat.le_of_not_lt hc)]
  by_cases first : 0 < t.size
  · exact h 0 first
  · have empty : t.records[0]? = none := Array.getElem?_eq_none (Nat.le_of_not_lt first)
    rw [get_eq_getD, show t.records[SymbolId.none.val]? = none from empty, empty]
    exact fun _ mem => nomatch mem

/-- Over declarations without variables, only variables lead to variables. -/
theorem CheckState.Reaches.of_closed {s : CheckState}
    {l r : Ty} {P : Mention → Prop} (ht : s.table.VarFree)
    (syms : ∀ c, P (.sym c)) (hl : ∀ m ∈ l.mentions, P m) (hr : ∀ m ∈ r.mentions, P m)
    (held : ∀ v info, s.vars.info? v = some info → P (.var v) → ∀ m ∈ info.mentions, P m)
    {m : Mention} (h : s.Reaches l r m) : P m := by
  induction h with
  | left h => exact hl _ h
  | right h => exact hr _ h
  | @declared _ m _ h =>
    have symbol := ht.get _ _ h
    cases m with
    | sym c => exact syms c
    | var v => cases symbol
  | held _ hi hm ih => exact held _ _ hi ih _ hm
  | owner | known | linearized => exact syms _

theorem CheckState.not_reaches_of_varFree {s : CheckState} {l r : Ty}
    (hl : l.VarFree) (hr : r.VarFree) (ht : s.table.VarFree) : ¬ s.Reaches l r (.var v) := by
  intro h
  have symbol : (Mention.var v).isVar = false :=
    h.of_closed (P := fun m => m.isVar = false) ht (fun _ => rfl) hl hr fun _ _ _ isSym =>
      nomatch isSym
  cases symbol

/-! ## Queries -/

namespace Config

variable {cfg : Config} (ha : ∀ sc, cfg.annotations.Safe sc)
  {s : CheckState} {l r : Ty} {v : VarId} {info : VarInfo Ty}
include ha

theorem query_spares (s : CheckState) (l r : Ty) :
    s.Spares l r ((cfg.isSubtype l r).after s).table ((cfg.isSubtype l r).after s).vars.vars ∧
      s.Spares l r ((cfg.isSameType l r).after s).table
        ((cfg.isSameType l r).after s).vars.vars := by
  have hq := cfg.queriesUpTo_upheld (s.instantiating_spares l r)
    (AnnotationChecker.Safe.keeping (ha _)) (levelsLeft s)
  have hl : (s.reach l r).In s.table.size l := CheckState.reach_ty fun _ => .left
  have hr : (s.reach l r).In s.table.size r := CheckState.reach_ty fun _ => .right
  have closed := s.reach_closed l r
  have sub := (hq.sub hl hr .unlimited).onward closed (Nat.le_refl _) (.start s l r)
  have same := (hq.same hl hr).onward closed (Nat.le_refl _) (.start s l r)
  have runSub : (cfg.isSubtype l r).after s = _ := cfg.after_run (.isSubtype l r) s
  have runSame : (cfg.isSameType l r).after s = _ := cfg.after_run (.isSameType l r) s
  rw [runSub, runSame]
  exact ⟨sub.holds, same.holds⟩

/-- Whatever they answer, and also where they fail, queries leave a variable that their types do not
lead to as it is; between types without variables, over declarations without variables, they leave
every variable as it is. -/
theorem queries_spare_unreached_variables (s : CheckState) (l r : Ty) :
    let spared (v : VarId) := ∀ info, s.vars.info? v = some info →
      ((cfg.isSubtype l r).after s).vars.info? v = some info ∧
        ((cfg.isSameType l r).after s).vars.info? v = some info
    (∀ v, ¬ s.Reaches l r (.var v) → spared v) ∧
      (l.VarFree → r.VarFree → s.table.VarFree → ∀ v, spared v) := by
  intro spared
  have unreached : ∀ v, ¬ s.Reaches l r (.var v) → spared v := by
    intro v hv info hi
    have old : v.val < s.vars.vars.size := (Array.getElem?_eq_some_iff.1 hi).1
    obtain ⟨sub, same⟩ := query_spares ha s l r
    exact ⟨(sub.spared old hv).trans hi, (same.spared old hv).trans hi⟩
  exact ⟨unreached, fun hl hr ht v => unreached v (CheckState.not_reaches_of_varFree hl hr ht)⟩

end Config

/-- Of two variables, one is bounded by a query that mentions it, and none by a query that opens one
existential type and solves for another. -/
theorem Config.unmentioned_variable_is_spared :
    let cfg : Config := ⟨{}, .typeConstraints, 9⟩
    let pair (a : Ty) := Ty.ref (.this Known.scalaClass) ⟨Known.count⟩ [a, Known.anyType]
    let some (s : SymbolId) := Ty.exist [s] (pair (.ref .noPrefix s []))
    let q : SymbolId := ⟨Known.count + 3⟩
    let r : SymbolId := ⟨Known.count + 4⟩
    let s := cfg.session [.freshVar Known.anyType {}, .freshVar Known.anyType {}]
      (.fresh cfg.policy (SymM.declarePairs.after .initial) 0 #[])
    let info : VarInfo Ty := { origin := Known.anyType, level := 0 }
    let bounded := (cfg.isSubtype (pair (.var ⟨1⟩)) (pair Known.objectType)).after s
    let solved := (cfg.isSubtype (some q) (some r)).after s
    (∀ sc, cfg.annotations.Safe sc) ∧ s.table.VarFree ∧ ¬ s.Reaches (pair (.var ⟨1⟩))
      (pair Known.objectType) (.var ⟨0⟩) ∧ s.vars.info? ⟨0⟩ = info ∧
      bounded.vars.info? ⟨1⟩ ≠ s.vars.info? ⟨1⟩ ∧ bounded.vars.info? ⟨0⟩ = info ∧ (some q).VarFree ∧
      (some r).VarFree ∧ solved.vars.vars.size = 3 ∧ solved.vars.info? ⟨0⟩ = info := by
  intro cfg pair some q r s info bounded solved
  have ha : ∀ sc, cfg.annotations.Safe sc := fun sc _ _ _ _ _ _ =>
    .get_bind fun _ _ _ _ => .pure fun _ _ => trivial
  have ht : s.table.VarFree := by decide +kernel
  have unreached : ¬ s.Reaches (pair (.var ⟨1⟩)) (pair Known.objectType) (.var ⟨0⟩) := by
    intro h
    have others : ∀ info ∈ s.vars.vars.toList, ∀ m ∈ info.mentions, m ≠
      .var ⟨0⟩ := by decide +kernel
    refine h.of_closed (P := (· ≠ .var ⟨0⟩)) ht (fun c => Mention.noConfusion)
      (by decide +kernel) (by decide +kernel) (fun v info hi _ => others info ?_) rfl
    exact Array.mem_toList_iff.2 (Array.mem_of_getElem? hi)
  have hi : s.vars.info? ⟨0⟩ = info := by decide +kernel
  have hq : (some q).VarFree := by decide +kernel
  have hr : (some r).VarFree := by decide +kernel
  have first := (queries_spare_unreached_variables ha s (pair (.var ⟨1⟩)) (pair Known.objectType)).1
    ⟨0⟩ unreached info hi
  have second := (queries_spare_unreached_variables ha s (some q) (some r)).2 hq hr ht ⟨0⟩ info hi
  exact ⟨ha, ht, unreached, hi, by decide +kernel, first.1, hq, hr, by decide +kernel, second.1⟩

/-- What `l` and `r` mention is among `names`, and so is what is declared of these. -/
abbrev SymbolTable.Encloses (t : SymbolTable) (names : List SymbolId) (l r : Ty) : Prop :=
  (∀ m ∈ l.mentions ++ r.mentions, m ∈ names.map .sym) ∧
    ∀ c ∈ names, ∀ m ∈ (t.get c).declares, m ∈ names.map .sym

/-- A class `Box[A]`, a class that extends `Box[?0]`, and a class nested in that one. -/
def SymM.declareNested : SymM Unit := do
  let box ← newClass Known.scalaClass "Box" .empty
  let a ← newTypeParam box "A" .invariant
  modify (·.setTParams box [a])
  let outer ← newClass Known.scalaClass "D" .empty
  modify (·.setParents outer [.ref (.this Known.scalaClass) box [.var ⟨0⟩]])
  let _ ← newClass outer "C" .empty

/-- A class that is linearized while it inherits, through an alias, from a class with a member of
type `?0`; and a refinement that asks for such a member. -/
def SymM.declareFormerParent : SymM Unit := do
  let former ← newClass Known.scalaClass "A" .empty
  let parent ← newClass Known.scalaClass "B" .empty
  let synonym ← newAliasType Known.scalaClass "T"
  setInfo synonym (Known.scalaRef former)
  let c ← newClass Known.scalaClass "C" .empty
  modify (·.setParents c [Known.scalaRef synonym])
  let _ ← baseClasses c
  setInfo synonym (Known.scalaRef parent)
  let x ← newValue former "x" .empty
  setInfo x (.var ⟨0⟩)
  let refinement ← newRefinementClass Known.scalaClass
  let y ← newValue refinement "x" .empty
  setInfo y Known.anyValType

/-- Queries that hold bound a variable which no declaration of what they mention leads to: through
the owner of a class that they mention, through the class of a constant, and through what is
remembered of a class. -/
theorem Config.undeclared_ways_bound_variable :
    let cfg : Config := ⟨{}, .typeConstraints, 9⟩
    let id (i : Nat) : SymbolId := ⟨Known.count + i⟩
    let box (a : Ty) := Ty.ref (.this Known.scalaClass) (id 0) [a]
    let common :=
      [Known.scalaClass, Known.anyVal, Known.anyRef, Known.any, Known.object, Known.javaLangClass]
    let bounds (t : SymbolTable) (l r : Ty) :=
      let s := cfg.session [.freshVar Known.anyType {}] (.fresh cfg.policy t 0 #[])
      (cfg.isSubtype l r).answer? s = some true ∧ ((cfg.isSubtype l r).after s).vars.info?
        ⟨0⟩ ≠ s.vars.info? ⟨0⟩
    let t := SymM.declareNested.after .initial
    let l := Ty.this (id 3)
    let r := Ty.ref (box Known.anyValType) (id 3) []
    let t1 := t.setParents Known.int [box (.var ⟨0⟩)]
    let l1 := Ty.const (.int 5)
    let r1 := box Known.anyValType
    let t2 := SymM.declareFormerParent.after .initial
    let l2 := Known.scalaRef (id 3)
    let r2 := Ty.refined [] [id 6] (id 5)
    t.Encloses (id 0 :: id 1 :: id 3 :: common) l r ∧ bounds t l r ∧
      t1.Encloses (id 0 :: id 1 :: common) l1 r1 ∧ bounds t1 l1 r1 ∧
      t2.Encloses (id 1 :: id 2 :: id 3 :: id 5 :: id 6 :: common) l2 r2 ∧ bounds t2 l2 r2 := by
  decide +kernel

end Conformance

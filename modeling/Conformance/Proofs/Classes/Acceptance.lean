import Conformance.Proofs.Classes.References

/-! # What the search for base types accepts

A class type is compared with another one at the base type that is found first. `Accepts` says what
comes of this, for class types and for intersections of them. Queries answer `true` only to what is
accepted, and with an unlimited depth to all of it, unless the guard refused an entry. -/

namespace Conformance

open SymbolTable SymM CheckM

variable {t' : SymbolTable}

namespace SymbolTable

variable {t : SymbolTable}

/-- Classes applied to all their arguments, and intersections. -/
inductive Joined (t : SymbolTable) : Ty → Prop where
  | app {pkg c : SymbolId} {args : List Ty} (applied : t.Applied pkg c args)
      (terms : ∀ a ∈ args, Joined t a) : Joined t (.ref (.this pkg) c args)
  | meet {parents : List Ty} {cls : SymbolId} (terms : ∀ p ∈ parents, Joined t p) :
    Joined t (.refined parents [] cls)

theorem Joined.applied {pkg c : SymbolId} {args : List Ty}
    (h : t.Joined (.ref (.this pkg) c args)) : t.Applied pkg c args := by
  cases h with
  | app applied _ => exact applied

theorem Joined.arg {pkg c : SymbolId} {args : List Ty}
    (h : t.Joined (.ref (.this pkg) c args)) {a : Ty} (ha : a ∈ args) : t.Joined a := by
  cases h with
  | app _ terms => exact terms a ha

theorem Joined.congruent : t.Congruent t.Joined := .app

theorem ClassType.joined {ty : Ty} (h : t.ClassType ty) : t.Joined ty := by
  induction h with
  | param mem => cases mem
  | app package plain arity _ ih => exact .app ⟨package, plain, arity⟩ ih

/-- Acceptance by the bottom types, at the base type that is found first, and by the parts of
intersections. -/
inductive Accepts (t : SymbolTable) : Ty → Ty → Prop where
  | nothing {pkg pkg' d : SymbolId} {args args' : List Ty} :
      Accepts t (.ref (.this pkg) Known.nothing args) (.ref (.this pkg') d args')
  | null {pkg pkg' d : SymbolId} {args args' : List Ty}
      (plain : t.IsPlainClass d) (admits : t.AdmitsNull d) :
      Accepts t (.ref (.this pkg) Known.null args) (.ref (.this pkg') d args')
  | base {l : Ty} {pkg d : SymbolId} {as bs : List Ty}
      (plain : t.IsPlainClass d) (nearest : t.Nearest d l as) (len : as.length = bs.length)
      (co : ∀ (i : Nat) p a b, (t.tparams d)[i]? = some p → as[i]? = some a → bs[i]? = some b →
        (t.get p).variance ≠ .contravariant → Accepts t a b)
      (contra : ∀ (i : Nat) p a b, (t.tparams d)[i]? = some p → as[i]? = some a → bs[i]? = some b →
        (t.get p).variance ≠ .covariant → Accepts t b a) :
      Accepts t l (.ref (.this pkg) d bs)
  | all {l : Ty} {parents : List Ty} {cls : SymbolId} (each : ∀ p ∈ parents, Accepts t l p) :
      Accepts t l (.refined parents [] cls)
  | any {p : Ty} {parents : List Ty} {cls pkg d : SymbolId}
      {bs : List Ty} (mem : p ∈ parents) (below : Accepts t p (.ref (.this pkg) d bs)) :
      Accepts t (.refined parents [] cls) (.ref (.this pkg) d bs)

namespace Accepts

variable {l r : Ty} {pkg pkg' c d cls : SymbolId} {as bs parents : List Ty}

theorem of_args (plain : t.IsPlainClass d) (nearest : t.Nearest d l as)
    (args : t.Pointwise t.Accepts (t.tparams d) as bs) : t.Accepts l (.ref (.this pkg) d bs) :=
  .base plain nearest args.len args.co args.contra

/-- An intersection is below what a part of it is below. -/
theorem of_parent {p : Ty} (mem : p ∈ parents) (h : t.Accepts p r) :
    t.Accepts (.refined parents [] cls) r := by
  induction h with
  | nothing => exact .any mem .nothing
  | null plain admits => exact .any mem (.null plain admits)
  | base plain nearest len co contra => exact .any mem (.base plain nearest len co contra)
  | all _ ih => exact .all fun p' hp' => ih p' hp' mem
  | any mem' below => exact .any mem (.any mem' below)

theorem refl (h : t.Joined l) : t.Accepts l l := by
  induction h with
  | app applied _ ih => exact .of_args applied.plain .here (.refl ih)
  | meet _ ih => exact .all fun p hp => .of_parent hp (ih p hp)

/-- The package of a prefix does not matter. -/
theorem left_package (h : t.Accepts (.ref (.this pkg) c as) r) :
    t.Accepts (.ref (.this pkg') c as) r := by
  generalize eq : Ty.ref (.this pkg) c as = l at h
  induction h with
  | nothing => cases eq; exact .nothing
  | null plain admits => cases eq; exact .null plain admits
  | base plain nearest len co contra => subst eq; exact .base plain nearest.package len co contra
  | all _ ih => exact .all fun p hp => ih p hp eq
  | any => cases eq

theorem right_package (h : t.Accepts l (.ref (.this pkg) d bs)) :
    t.Accepts l (.ref (.this pkg') d bs) := by
  generalize eq : Ty.ref (.this pkg) d bs = r at h
  induction h with
  | nothing => cases eq; exact .nothing
  | null plain admits => cases eq; exact .null plain admits
  | base plain nearest len co contra => cases eq; exact .base plain nearest len co contra
  | all => cases eq
  | any mem _ ih => cases eq; exact .any mem (ih rfl)

end Accepts

/-- Conformance that a bottom class gives. -/
def Bottom (t : SymbolTable) (c d : SymbolId) : Prop :=
    c = Known.nothing ∨ c = Known.null ∧ t.AdmitsNull d

theorem Bottom.accepts {pkg pkg' c d : SymbolId} {as bs : List Ty} (h : t.Bottom c d)
    (hd : t.IsPlainClass d) : t.Accepts (.ref (.this pkg) c as) (.ref (.this pkg') d bs) := by
  obtain rfl | ⟨rfl, admits⟩ := h
  · exact .nothing
  · exact .null hd admits

theorem Accepts.cases {l : Ty} {pkg pkg' c d : SymbolId}
    {as bs : List Ty} (h : t.Accepts l (.ref (.this pkg') d bs)) (eq : l = .ref (.this pkg) c as) :
    t.Bottom c d ∨ ∃ as', t.Nearest d l as' ∧ t.Pointwise t.Accepts (t.tparams d) as' bs := by
  cases h with
  | nothing => cases eq; exact .inl (.inl rfl)
  | null _ admits => cases eq; exact .inl (.inr ⟨rfl, admits⟩)
  | base _ nearest len co contra => exact .inr ⟨_, nearest, len, co, contra⟩
  | any => cases eq

/-- What the supertype that is found is below, the type is below. -/
theorem Accepts.of_nearest (ht : t.Plain) {pkg pkg' pkg'' c d : SymbolId} {as bs cs : List Ty}
    (hd : t.IsPlainClass d) (nearest : t.Nearest d (.ref (.this pkg) c as) cs)
    (h : t.Accepts (.ref (.this pkg'') d cs) (.ref (.this pkg') d bs)) :
    t.Accepts (.ref (.this pkg) c as) (.ref (.this pkg') d bs) := by
  obtain bottom | ⟨as', self, args⟩ := h.cases rfl
  · -- a bottom class is its own base class only
    obtain ⟨_, eq⟩ := nearest.base.bottom ht (bottom.imp id And.left)
    cases eq
    exact bottom.accepts hd
  · rw [self.self] at args
    exact .of_args hd nearest args

end SymbolTable

namespace CheckM.Decided

variable {t : SymbolTable} {n : Nat} {ok : Prop} {α : Type} {f : α → CheckM Bool} {A D : α → Prop}

theorem allM {xs : List α} (h : ∀ x ∈ xs, Decided t n ok (f x) (A x) (D x)) :
    Decided t n ok (xs.allM f) (∀ x ∈ xs, A x) (∀ x ∈ xs, D x) := Settles.allM h

theorem anyM {xs : List α} (h : ∀ x ∈ xs, Decided t n ok (f x) (A x) (D x)) :
    Decided t n ok (xs.anyM f) (∃ x ∈ xs, A x) (∃ x ∈ xs, D x) := by
  induction xs with
  | nil => exact .no (by simp)
  | cons x xs ih =>
    simp only [List.forall_mem_cons, List.exists_mem_cons_iff] at h ⊢
    refine Settles.bind (h.1) fun b hb => ?_
    cases b with
    | true => exact .pure (fun _ => .inl (hb rfl)) fun _ _ => rfl
    | false =>
      refine Settles.imp (ih h.2) (fun _ h b => .inr (h b)) fun b _ h no d => ?_
      exact d.elim (fun d => nomatch no d) h

end CheckM.Decided

variable {t : SymbolTable} {n : Nat} {cfg : Config}
  {q : Queries} {pkg pkg' c d cls : SymbolId} {as bs parents : List Ty} {l r : Ty} {depth : Depth}

/-- Queries answer `true` only to what is accepted, and with an unlimited depth to all of it. -/
def Queries.Accept (t : SymbolTable) (n : Nat) (ok : Prop) (q : Queries) : Prop :=
  ∀ l r, t.Joined l → t.Joined r → ∀ depth,
    Decided t n ok (q.sub l r depth) (t.Accepts l r) (depth = .unlimited ∧ t.Accepts l r)

/-! ## References -/

section References

variable (ht : t.Plain)
include ht

/-- The last pass admits the bottom types. -/
theorem leftRef_decided (hl : t.Applied pkg c as) (hd : t.IsPlainClass d) :
    Decided t n (Fueled t cfg.fuel) (leftRef cfg q (.this pkg) c as (.ref (.this pkg') d bs) depth)
      (t.Bottom c d) (t.Bottom c d) := by
  by_cases nothing : c = Known.nothing
  · simp only [leftRef, nothing, beq_self_eq_true, if_true]
    exact .yes (.inl rfl)
  · by_cases null : c = Known.null
    · subst null
      have notNothing : (Known.null == Known.nothing) = false := rfl
      simp only [leftRef, notNothing, Bool.false_eq_true, beq_self_eq_true, if_true, if_false]
      have admits : Settles t.Remembers n (Fueled t cfg.fuel) (CheckM.onTable (SymM.containsNull d))
        (· = true ↔ t.AdmitsNull d) (fun b => t.AdmitsNull d → b = true) :=
        .onTable (containsNull_yields ht hd) (fun _ => trivial) fun _ h => h.2
      refine admits.imp (fun _ h b => .inr ⟨rfl, h.1 b⟩) fun _ _ h bottom => ?_
      obtain eq | ⟨-, admits⟩ := bottom
      · cases eq
      · exact h admits
    · refine Decided.imp (leftRef_decided_no hl.plain.static hl.arity nothing null (.inr ?_))
        False.elim ?_
      · exact fun _ _ h => nomatch h
      · simp [Bottom, nothing, null]

theorem rightRef_decided (hl : t.Applied pkg c as) (hr : t.Applied pkg' d bs) :
    Decided t n (Fueled t cfg.fuel) (rightRef cfg q (.ref (.this pkg) c as) (.this pkg') d bs depth)
      (t.Bottom c d) (t.Bottom c d) :=
  Settles.of_run (leftRef_decided ht hl hr.plain) fun _ hs =>
    rightRef_run hs hr.plain.static hr.arity

omit ht in
/-- Two references are decided by their arguments where the heads are the same, and by what follows
otherwise. -/
theorem refsConform_of_search {ok A : Prop} {R : Ty → Ty → Prop} (pos : ok → 0 < cfg.fuel)
    (owned : t.IsPackage (t.owner c)) (concrete : (t.get d).isAbstractType = false)
    (arity : as.length = (t.tparams c).length) (arity' : bs.length = (t.tparams d).length) (hq :
    ∀ a ∈ as, ∀ b ∈ bs, Decided t n ok (q.sub a b depth) (R a b) (depth = .unlimited ∧ R a b) ∧
      Decided t n ok (q.sub b a depth) (R b a) (depth = .unlimited ∧ R b a))
    (sound : c = d → t.Pointwise R (t.tparams c) as bs → A)
    (search : ∀ t', t.Remembers t' → Decided t n ok (baseSearch cfg q (.this pkg) c as (.this pkg')
      d bs depth t') A (depth = .unlimited ∧ A ∧ ¬ (c = d ∧ t.Pointwise R (t.tparams c) as bs))) :
    Decided t n ok (refsConform cfg q (.this pkg) c as (.this pkg') d bs depth)
      A (depth = .unlimited ∧ A) := by
  unfold refsConform
  refine .readTable fun t' ht' => ?_
  have search := search t' ht'
  have constructor : Settles t.Remembers n ok (constructorConforms
      cfg q (.this pkg) c (.this pkg') d depth) (· = decide (c = d)) fun _ =>
      True := constructorConforms_concrete pos Remembers.get_eq trivial trivial owned concrete
  refine .after constructor fun b hb => ?_
  subst hb
  by_cases same : c = d
  · subst same
    have args : Decided t n ok (argsConform q depth as bs (t'.tparams c)) (t.Pointwise
        R (t.tparams c) as bs) (depth = .unlimited ∧ t.Pointwise R (t.tparams c) as bs) := by
      have tparams : t'.tparams c = t.tparams c := by rw [tparams, ht'.get_eq, tparams]
      have len : as.length = bs.length := arity.trans arity'.symm
      rw [argsConform, tparams, if_pos ⟨len, arity⟩]
      refine (Decided.judged.subArgs (A := R) (D := fun a b => depth = .unlimited ∧ R a b)
        ?_ arity).imp id fun both => both.2.imp fun holds => ⟨both.1, holds⟩
      refine ⟨len, fun i p a b _ ha hb _ => ?_, fun i p a b _ ha hb _ => ?_⟩
      · exact (hq a (List.mem_of_getElem? ha) b (List.mem_of_getElem? hb)).1
      · exact (hq a (List.mem_of_getElem? ha) b (List.mem_of_getElem? hb)).2
    simp only [decide_true, if_true]
    refine (args.or search).imp (fun either => either.elim (sound rfl) id) ?_
    rintro ⟨unlimited, holds⟩
    by_cases below : t.Pointwise R (t.tparams c) as bs
    · exact .inl ⟨unlimited, below⟩
    · exact .inr ⟨unlimited, holds, fun h => below h.2⟩
  · simp only [same, decide_false, Bool.false_eq_true, if_false]
    exact search.imp id fun both => ⟨both.1, both.2, fun h => same h.1⟩

variable (hl : t.Joined (.ref (.this pkg) c as)) (hr : t.Joined (.ref (.this pkg') d bs))
  (hq : q.Accept t n (Fueled t cfg.fuel))
include hl hr hq

/-- The search by the base type on the left, then the passes after it. -/
theorem baseSearch_decided (depth : Depth) (ht' : t.Remembers t') :
    Decided t n (Fueled t cfg.fuel) (baseSearch cfg q (.this pkg) c as (.this pkg') d bs depth t')
      (t.Accepts (.ref (.this pkg) c as) (.ref (.this pkg') d bs))
      (depth = .unlimited ∧ (c = d → t.Bottom c d) ∧
        t.Accepts (.ref (.this pkg) c as) (.ref (.this pkg') d bs)) := by
  have hd := hr.applied.plain
  have last : Decided t n (Fueled t cfg.fuel) (rightRef cfg q (.ref (.this pkg) c as) (.this pkg')
      d bs depth) (t.Accepts (.ref (.this pkg) c as) (.ref (.this pkg') d bs)) (t.Bottom c d) :=
    (rightRef_decided ht hl.applied hr.applied).imp (fun h => h.accepts hd) id
  rw [baseSearch, ht'.get_eq, hd.isClass]
  by_cases exhausted : depth.isExhausted = true
  · simp only [exhausted, Bool.not_true, Bool.and_false, Bool.false_eq_true, if_false]
    refine last.imp id ?_
    rintro ⟨rfl, -⟩
    cases exhausted
  · simp only [exhausted, Bool.not_false, Bool.and_true, if_true]
    refine .onTable (baseType_yields ht cfg.fuel hl.applied hd) id fun base hbase => ?_
    obtain ⟨none, rfl⟩ | ⟨pkg'', cs, rfl, package, nearest⟩ := hbase
    · simp only [Ty.isPresent, Bool.and_false, Bool.false_eq_true, if_false]
      refine last.imp id ?_
      rintro ⟨-, -, accepts⟩
      obtain bottom | ⟨_, nearest, -⟩ := accepts.cases rfl
      · exact bottom
      · exact absurd (nearest.derives ht hl.applied) none
    · by_cases same : Ty.ref (.this pkg'') d cs = .ref (.this pkg) c as
      · simp only [same, bne_self_eq_false, Bool.false_and, Bool.false_eq_true, if_false]
        cases same
        exact last.imp id fun all => all.2.1 rfl
      · simp only [bne_iff_ne.2 same, Ty.isPresent, Bool.and_self, if_true]
        have found := nearest.applied ht Joined.congruent hl.applied (fun _ => hl.arg) package
        refine ((hq _ _ (.app found.1 found.2) hr depth.decr).or last).imp ?_ ?_
        · rintro (h | h)
          · exact h.of_nearest ht hd nearest
          · exact h
        · rintro ⟨rfl, -, accepts⟩
          obtain bottom | ⟨as', nearest', args⟩ := accepts.cases rfl
          · exact .inr bottom
          · obtain rfl := nearest.unique nearest'
            exact .inl ⟨rfl, .of_args hd .here args⟩

theorem refsConform_decided :
    Decided t n (Fueled t cfg.fuel) (refsConform cfg q (.this pkg) c as (.this pkg') d bs depth)
      (t.Accepts (.ref (.this pkg) c as) (.ref (.this pkg') d bs))
      (depth = .unlimited ∧ t.Accepts (.ref (.this pkg) c as) (.ref (.this pkg') d bs)) := by
  have hd := hr.applied.plain
  refine refsConform_of_search (R := t.Accepts) Fueled.pos
    hl.applied.plain.owned (by rw [SymbolRecord.isAbstractType, hd.isClass]; simp)
    hl.applied.arity hr.applied.arity (fun a ha b hb => ?_) (fun same args => ?_) fun t' ht' => ?_
  · exact ⟨hq a b (hl.arg ha) (hr.arg hb) depth, hq b a (hr.arg hb) (hl.arg ha) depth⟩
  · subst same
    exact .of_args hd .here args
  · refine (baseSearch_decided ht hl hr hq depth ht').imp id ?_
    rintro ⟨unlimited, accepts, apart⟩
    refine ⟨unlimited, fun same => ?_, accepts⟩
    subst same
    obtain bottom | ⟨as', nearest, accepted⟩ := accepts.cases rfl
    · exact bottom
    · obtain rfl := nearest.self
      exact absurd ⟨rfl, accepted⟩ apart

end References

/-! ## The cascade -/

/-- No shortcut, path, constant or constructor. -/
structure SymbolTable.IsOrdinary (t : SymbolTable) (ty : Ty) : Prop where
  not_permissive : ty.isPermissive = false
  present : ty.isPresent = true
  not_prefix : ty ≠ .noPrefix
  not_path : ty.isSingletonRef = false
  not_constant : ty.isConstant = false
  not_higherKinded : t.isHigherKinded ty = false

/-- Such types go through the passes unless they are the same. -/
theorem subStep_ordinary_run {s : CheckState} (hl : s.table.IsOrdinary l)
    (hr : s.table.IsOrdinary r) (ne : l ≠ r) : subStep
    cfg q l r depth s = firstPass cfg q l r depth s := by
  unfold subStep
  simp only [ne, hl.not_permissive, hr.not_permissive,
    hl.present, hr.present, hl.not_prefix, hr.not_prefix, hl.not_path, hl.not_constant,
    decide_false, Bool.false_and, Bool.or_self, Bool.not_true, Bool.false_eq_true, if_false]
  rw [readTable_bind]
  simp only [hl.not_higherKinded, hr.not_higherKinded, Bool.or_self, Bool.false_eq_true, if_false]

theorem SymbolTable.Remembers.ordinary_app (ht' : t.Remembers t')
    (applied : t.Applied pkg c as) : t'.IsOrdinary (.ref (.this pkg) c as) :=
    ⟨rfl, rfl, nofun, rfl, rfl, ht'.not_higherKinded applied.arity⟩

theorem SymbolTable.Remembers.ordinary (ht' : t.Remembers t')
    (h : t.Joined l) : t'.IsOrdinary l := by
  cases h with
  | app applied _ => exact ht'.ordinary_app applied
  | meet => exact ⟨rfl, rfl, nofun, rfl, rfl, rfl⟩

section Cascade

variable (hq : q.Accept t n (Fueled t cfg.fuel))
include hq

/-- An intersection on the right asks for its parts. -/
theorem subStep_meet_decided (hl : t.Joined l) (hr : t.Joined (.refined parents [] cls))
    (ne : l ≠ .refined parents [] cls) : Decided t n (Fueled t cfg.fuel)
    (subStep cfg q l (.refined parents [] cls) depth)
      (t.Accepts l (.refined parents [] cls))
        (depth = .unlimited ∧ t.Accepts l (.refined parents [] cls)) := by
  have parts : Decided t n (Fueled t cfg.fuel)
      (conformsToRefinement cfg q l parents [] depth) ((∀ p ∈ parents, t.Accepts l p) ∧ True)
      ((∀ p ∈ parents, depth = .unlimited ∧ t.Accepts l p) ∧ True) := by
    cases hr with
    | meet terms =>
      exact (Decided.allM fun p hp => hq l p hl (terms p hp) depth).and fun _ => .yes trivial
  refine Decided.imp (Settles.of_run parts fun s hs => ?_) (fun h => .all h.1) ?_
  · rw [subStep_ordinary_run (hs.ordinary hl) (hs.ordinary hr) ne]
    cases hl <;> rfl
  · rintro ⟨unlimited, all | _⟩
    rename_i each
    exact ⟨fun p hp => ⟨unlimited, each p hp⟩, trivial⟩

/-- An intersection on the left answers by one of its parts. -/
theorem subStep_parts_decided (hl : t.Joined (.refined parents [] cls))
    (hr : t.Joined (.ref (.this pkg) d bs)) : Decided t n (Fueled t cfg.fuel)
    (subStep cfg q (.refined parents [] cls) (.ref (.this pkg) d bs) depth)
      (t.Accepts (.refined parents [] cls) (.ref (.this pkg) d bs))
      (depth = .unlimited ∧ t.Accepts (.refined parents [] cls) (.ref (.this pkg) d bs)) := by
  have parts : Decided t n (Fueled t cfg.fuel) (parents.anyM
      (q.sub · (.ref (.this pkg) d bs) depth)) (∃ p ∈ parents, t.Accepts p (.ref (.this pkg) d bs))
      (∃ p ∈ parents, depth = .unlimited ∧ t.Accepts p (.ref (.this pkg) d bs)) := by
    cases hl with
    | meet terms => exact Decided.anyM fun p hp => hq p _ (terms p hp) hr depth
  refine Decided.imp (Settles.of_run parts fun s hs => ?_) (fun ⟨p, hp, h⟩ => .any hp h) ?_
  · rw [subStep_ordinary_run (hs.ordinary hl) (hs.ordinary hr) nofun]
    exact rightRef_run hs hr.applied.plain.static hr.applied.arity
  · rintro ⟨unlimited, h⟩
    cases h with
    | base _ nearest => cases nearest
    | any mem below => exact ⟨_, mem, unlimited, below⟩

theorem subStep_accepts (ht : t.Plain) (hl : t.Joined l)
    (hr : t.Joined r) : Decided t n (Fueled t cfg.fuel)
    (subStep cfg q l r depth) (t.Accepts l r) (depth = .unlimited ∧ t.Accepts l r) := by
  by_cases same : l = r
  · rw [same, subStep_refl]
    exact .yes (.refl hr)
  cases hr with
  | meet terms => exact subStep_meet_decided hq hl (.meet terms) same
  | app applied terms =>
    cases hl with
    | meet terms' => exact subStep_parts_decided hq (.meet terms') (.app applied terms)
    | app applied' terms' =>
      exact Settles.of_run (refsConform_decided ht (.app applied' terms') (.app applied terms) hq)
        fun _ hs =>
        subStep_refs_run hs same applied'.arity applied.arity

end Cascade

namespace Config

theorem queriesUpTo_accept (cfg : Config) (ht : t.Plain) (n : Nat) :
    (cfg.queriesUpTo n).Accept t n (Fueled t cfg.fuel) := by
  induction n with
  | zero => exact fun l r _ _ depth => cfg.sub_decided_zero
  | succ n ih => exact fun l r hl hr depth => cfg.sub_decided_succ (subStep_accepts ih ht hl hr)

end Config

end Conformance

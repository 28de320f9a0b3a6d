import Conformance.Proofs.Classes.Contract
import Conformance.Proofs.Classes.Transitivity

/-! # Contracts of the rules for references

Symbols of packages are compared by what they are, whatever the prefixes, as long as no prefix may
stand for another one. Arguments are decided as their pairs are. -/

namespace Conformance

open SymbolTable SymM CheckM

variable {c : SymbolId}

/-- Symbols under such prefixes are identified only if they are the same. -/
def SymbolTable.IsRigid (t : SymbolTable) : Ty → Prop
  | .single _ s => (t.flags s).has .package = true
  | .var _ | .refined .. => False
  | _ => True

/-- A class or the class of a module, of a package. -/
structure SymbolTable.IsStaticClass (t : SymbolTable) (c : SymbolId) : Prop where
  kind : t.kind c = .plainClass ∨ t.kind c = .moduleClass
  owned : t.IsPackage (t.owner c)
  not_singleton : c ≠ Known.singleton
  not_notNull : c ≠ Known.notNull

variable {t : SymbolTable} {n : Nat} {cfg : Config} {q : Queries} {depth : Depth} {ok : Prop}

namespace SymbolTable

theorem IsPlainClass.static (hc : t.IsPlainClass c) : t.IsStaticClass c :=
  ⟨.inl hc.kind, hc.owned, hc.not_singleton, hc.not_notNull⟩

theorem IsPlainClass.not_module (hc : t.IsPlainClass c) : (t.get c).isModuleClass = false := by
  rw [SymbolRecord.isModuleClass, show (t.get c).kind = _ from hc.kind]
  rfl

theorem IsStaticClass.isClass (hc : t.IsStaticClass c) : (t.get c).isClass = true :=
    (class_of_kind hc.kind).1

theorem IsStaticClass.not_alias (hc : t.IsStaticClass c) : (t.get c).isAliasType = false :=
    (class_of_kind hc.kind).2.1

theorem IsStaticClass.not_refinement (hc : t.IsStaticClass c) :
    (t.get c).isRefinementClass = false :=
  (class_of_kind hc.kind).2.2.2

variable {t' : SymbolTable} {pre : Ty} {c : SymbolId} {as bs : List Ty}

theorem Remembers.not_raw (ht' : t.Remembers t') (arity : as.length = (t.tparams c).length) :
    t'.isRaw (.ref pre c as) = false := by
  rw [tparams] at arity
  simp only [isRaw, ht'.get_eq]
  cases as with
  | nil => simp [List.eq_nil_of_length_eq_zero arity.symm]
  | cons => simp

theorem Remembers.not_higherKinded (ht' : t.Remembers t')
    (arity : as.length = (t.tparams c).length) : t'.isHigherKinded (.ref pre c as) = false := by
  rw [tparams] at arity
  simp only [isHigherKinded, ht'.get_eq]
  cases as with
  | nil => simp [List.eq_nil_of_length_eq_zero arity.symm]
  | cons => simp

theorem pointwise_nil {R : Ty → Ty → Prop} : t.Pointwise R [] [] [] := ⟨rfl, by simp, by simp⟩

theorem pointwise_cons {R : Ty → Ty → Prop} {p : SymbolId} {ps : List SymbolId} {a b : Ty} :
    t.Pointwise R (p :: ps) (a :: as) (b :: bs) ↔
      ((t.get p).variance ≠ .contravariant → R a b) ∧ ((t.get p).variance ≠ .covariant → R b a) ∧
      t.Pointwise R ps as bs := by
  constructor
  · intro h
    refine ⟨h.co 0 p a b rfl rfl rfl, h.contra 0 p a b rfl rfl rfl, by simpa using h.len, ?_, ?_⟩
    · exact fun i => h.co (i + 1)
    · exact fun i => h.contra (i + 1)
  · rintro ⟨co, contra, rest⟩
    refine ⟨by simpa using rest.len, fun i p' a' b' hp ha hb hvar =>
      ?_, fun i p' a' b' hp ha hb hvar => ?_⟩
    all_goals cases i with
      | zero =>
        cases hp
        cases ha
        cases hb
        first | exact co hvar | exact contra hvar
      | succ i =>
        first | exact rest.co i p' a' b' hp ha hb hvar | exact rest.contra i p' a' b' hp ha hb hvar

end SymbolTable

/-- What is said of questions whose answer `true` implies `A` and follows from `D`, along
conjunctions of them. -/
structure Judged (t : SymbolTable) (V : CheckM Bool → Prop → Prop → Prop) : Prop where
  yes {A D : Prop} : A → V (pure true) A D
  imp {x : CheckM Bool} {A A' D D' : Prop} : V x A D → (A → A') → (D' → D) → V x A' D'
  read {f : SymbolTable → CheckM Bool} {A D : Prop} :
    (∀ t', t.Remembers t' → V (f t') A D) → V (readTable >>= f) A D
  and {x y : CheckM Bool} {A A' D D' : Prop} : V x A D → V y A' D' →
    V (x >>= fun b => if !b then pure false else y) (A ∧ A') (D ∧ D')

theorem CheckM.Decided.judged : Judged t (Decided t n ok) :=
    ⟨.yes, .imp, .readTable, fun hx hy => hx.and fun _ => hy⟩

/-- Arguments are judged as their pairs are, each as its parameter varies. -/
theorem Judged.subArgs {V : CheckM Bool → Prop → Prop → Prop}
    (hV : Judged t V) {A D : Ty → Ty → Prop} {as bs : List Ty}
    {ps : List SymbolId} (h : t.Pointwise (fun a b => V (q.sub a b depth) (A a b) (D a b)) ps as bs)
    (arity : as.length = ps.length) : V (subArgs q depth as bs ps)
    (t.Pointwise A ps as bs) (t.Pointwise D ps as bs) := by
  induction ps generalizing as bs with
  | nil =>
    obtain rfl : as = [] := by simpa using arity
    obtain rfl : bs = [] := by simpa using h.len.symm
    exact hV.yes pointwise_nil
  | cons p ps ih =>
    obtain ⟨a, as, rfl⟩ := List.exists_cons_of_length_eq_add_one arity
    obtain ⟨b, bs, rfl⟩ := List.exists_cons_of_length_eq_add_one (h.len.symm.trans arity)
    obtain ⟨up, down, others⟩ := pointwise_cons.1 h
    have rest := ih others (by simpa using arity)
    unfold Conformance.subArgs
    refine hV.read fun t' ht' => ?_
    rw [ht'.get_eq]
    simp only [pointwise_cons]
    cases hvar : (t.get p).variance with
    | invariant =>
      rw [hvar] at up down
      refine hV.imp (hV.and (down (by simp)) (hV.and (up (by simp)) rest)) ?_ ?_
      · rintro ⟨down, up, rest⟩
        exact ⟨fun _ => up, fun _ => down, rest⟩
      · rintro ⟨up, down, rest⟩
        exact ⟨down (by simp), up (by simp), rest⟩
    | covariant =>
      rw [hvar] at up
      refine hV.imp (hV.and (up (by simp)) rest) ?_ ?_
      · rintro ⟨up, rest⟩
        exact ⟨fun _ => up, by simp, rest⟩
      · rintro ⟨up, -, rest⟩
        exact ⟨up (by simp), rest⟩
    | contravariant =>
      rw [hvar] at down
      refine hV.imp (hV.and (down (by simp)) rest) ?_ ?_
      · rintro ⟨down, rest⟩
        exact ⟨by simp, fun _ => down, rest⟩
      · rintro ⟨-, down, rest⟩
        exact ⟨down (by simp), rest⟩

section Constructors

variable {I : SymbolTable → Prop} {pre pre' l r : Ty} {c d : SymbolId} {as bs : List Ty}

theorem subStep_refl : subStep cfg q l l depth = pure true := by
  simp only [subStep, decide_true, Bool.true_or, if_true]

/-- Applied to all their arguments, different references are compared by their constructors
first. -/
theorem subStep_refs_run {s : CheckState} (hs : t.Remembers s.table)
    (ne : Ty.ref pre c as ≠ .ref pre' d bs) (arity : as.length = (t.tparams c).length)
    (arity' : bs.length = (t.tparams d).length) : subStep cfg q (.ref pre c as)
    (.ref pre' d bs) depth s = refsConform cfg q pre c as pre' d bs depth s := by
  unfold subStep
  simp only [ne, decide_false, Ty.isPermissive, Ty.isPresent, Ty.isSingletonRef, Ty.isConstant,
    Bool.or_self, Bool.not_true, Bool.and_self, Bool.false_eq_true, if_false, reduceCtorEq]
  rw [readTable_bind]
  simp only [hs.not_higherKinded arity, hs.not_higherKinded arity',
    Bool.or_self, Bool.false_eq_true, if_false]
  rfl

/-- Classes on the right have no rule of their own. -/
theorem rightRef_run {s : CheckState} (hs : t.Remembers s.table) (hc : t.IsStaticClass c)
    (arity : as.length = (t.tparams c).length) :
    rightRef cfg q l pre c as depth s = finalPass cfg q l (.ref pre c as) depth s := by
  unfold rightRef
  rw [readTable_bind]
  simp only [beq_iff_eq, hc.not_notNull, hc.not_singleton, hs.get_eq, hc.isClass,
    hs.not_raw arity, hc.not_refinement, if_true, Bool.false_eq_true, if_false, Bool.false_and]

/-- Nor on the left, but for the bottom classes and the class of a module. -/
theorem leftRef_decided_no (hc : t.IsStaticClass c) (arity : as.length = (t.tparams c).length)
    (nothing : c ≠ Known.nothing) (null : c ≠ Known.null)
    (h : (t.get c).isModuleClass = false ∨ ∀ pre' x, r ≠ .single pre' x) :
    Decided t n ok (leftRef cfg q pre c as r depth) False False := by
  unfold leftRef
  simp only [beq_iff_eq, nothing, null, if_false]
  refine .readTable fun t' ht' => ?_
  simp only [ht'.get_eq, hc.isClass, ht'.not_raw arity,
    hc.not_refinement, if_true, Bool.false_eq_true, if_false, Bool.false_and]
  obtain plain | other := h
  · rw [plain]
    exact .no id
  · split
    · split
      · exact absurd rfl (other _ _)
      · exact .no id
    · exact .no id

/-- A class of a package agrees with itself, whatever the prefixes. -/
theorem constructorConforms_self (kept : t.Kept I) (owned : t.IsPackage (t.owner c)) :
    Settles I n ok (constructorConforms cfg q pre c pre' c depth) (· = true) fun _ => True := by
  unfold constructorConforms
  refine .bind .readTable fun t' ht' => ?_
  have package : (t'.flags (t.get c).owner).has .package = true := by
    rw [flags, kept ht']
    exact owned.flag
  simp only [kept ht', beq_self_eq_true, if_true, package, Bool.or_true]
  exact .pure rfl fun _ => trivial

theorem sameEntity_self (kept : t.Kept I) (owned : t.IsPackage (t.owner c)) :
    Settles I n ok (sameEntity cfg q c pre c pre') (· = true) fun _ => True := by
  unfold sameEntity
  refine .bind .readTable fun t' ht' => ?_
  have package : (t'.flags (t'.owner c)).has .package = true := by
    rw [flags, owner, kept ht', kept ht']
    exact owned.flag
  simp only [beq_self_eq_true, if_true, package, Bool.or_true, Bool.true_or]
  exact .pure rfl fun _ => trivial

variable (hok : ok → 0 < cfg.fuel) (kept : t.Kept I)
include hok kept

theorem isFlexiblePrefix_rigid (rigid : t.IsRigid pre) :
    Settles I n ok (isFlexiblePrefix cfg.fuel pre) (· = false) fun _ => True := by
  generalize cfg.fuel = fuel at hok
  cases fuel with
  | zero => exact fun _ _ _ h => absurd (hok h) (by simp)
  | succ fuel =>
    cases pre with
    | single pre s =>
      refine .bind .readTable fun t' ht' => ?_
      have package : (t'.flags s).has .package = true := by
        rw [flags, kept ht']
        exact rigid
      rw [if_pos package]
      exact .pure rfl fun _ => trivial
    | var | refined => exact rigid.elim
    | _ => exact .pure rfl trivial

theorem unifiable_rigid (rigid : t.IsRigid pre) (rigid' : t.IsRigid pre') :
    Settles I n ok (unifiable cfg q pre pre') (· = false) fun _ => True := by
  unfold unifiable
  refine (isFlexiblePrefix_rigid hok kept rigid).bind fun b hb => ?_
  subst hb
  refine (isFlexiblePrefix_rigid hok kept rigid').bind fun b hb => ?_
  subst hb
  exact .pure rfl fun _ _ => trivial

/-- Symbols of packages agree as constructors if they are the same, but for abstract types. -/
theorem constructorConforms_concrete (rigid : t.IsRigid pre) (rigid' : t.IsRigid pre')
    (owned : t.IsPackage (t.owner c)) (concrete : (t.get d).isAbstractType = false) : Settles
    I n ok (constructorConforms cfg q pre c pre' d depth) (· = decide (c = d)) fun _ => True := by
  by_cases same : c = d
  · subst same
    simpa only [decide_true] using constructorConforms_self kept owned
  · unfold constructorConforms
    refine .bind .readTable fun t' ht' => ?_
    simp only [kept ht', beq_iff_eq, same, if_false, decide_false]
    split
    · refine (unifiable_rigid hok kept rigid rigid').bind fun b hb => ?_
      subst hb
      simp only [Bool.false_eq_true, if_false, concrete]
      exact .pure rfl fun _ _ => trivial
    · exact .pure rfl fun _ => trivial

theorem sameEntity_settles (rigid : t.IsRigid pre)
    (rigid' : t.IsRigid pre') (owned : t.IsPackage (t.owner c)) :
    Settles I n ok (sameEntity cfg q c pre d pre') (· = decide (c = d)) fun _ => True := by
  by_cases same : c = d
  · subst same
    simpa only [decide_true] using sameEntity_self kept owned
  · unfold sameEntity
    refine .bind .readTable fun t' _ => ?_
    simp only [beq_iff_eq, same, if_false, decide_false]
    split
    · exact (unifiable_rigid hok kept rigid rigid').imp (fun _ h => h) fun _ _ _ _ => trivial
    · exact .pure rfl fun _ => trivial

end Constructors

namespace Config

variable {l r : Ty} {A D : Prop}

theorem sub_decided_zero (cfg : Config) : Decided t 0 ok ((cfg.queriesUpTo 0).sub l r depth) A D :=
  .query (Guard.admits_enter _) _ _ fun _ h => nomatch h

theorem sub_decided_succ (cfg : Config)
    (h : Decided t n ok (subStep cfg (cfg.queriesUpTo n) l r depth) A D) :
    Decided t (n + 1) ok ((cfg.queriesUpTo (n + 1)).sub l r depth) A D := by
  refine .query (Guard.admits_enter _) _ _ fun m eq => ?_
  obtain rfl : n = m := by simpa using eq
  exact h

theorem withQueries_settles {α : Type} {I : SymbolTable → Prop} {f : Queries → CheckM α}
    {P Q : α → Prop} (cfg : Config) (h : ∀ n, Settles I n ok (f (cfg.queriesUpTo n)) P Q) :
    Settles I n ok (cfg.withQueries f) P Q := by
  intro s hs _
  exact h (levelsLeft s) s hs (by unfold levelsLeft; omega)

end Config

end Conformance

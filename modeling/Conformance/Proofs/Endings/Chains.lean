import Conformance.Proofs.Endings.FirstOrder

/-! # Walks without a budget

Whether a type is stable or excludes null, and which classes it has members of, is asked of what the
type stands for until something is known. These walks compare a type with the next one only, so they
end exactly where the chain of types does. -/

namespace Conformance

open SymM SymbolTable

/-- `x` ends, and the declarations stay. -/
def Terminates {α : Type} (t : SymbolTable) (x : Nat → SymM α) : Prop :=
    Ends t x fun _ t' => t'.records = t.records

namespace SymbolTable

variable (t : SymbolTable)

/-- Whether the second type is stable is asked of the first. -/
inductive StableNext : Ty → Ty → Prop where
  | notNull (body : Ty) : StableNext body (.notNull body)
  | annotated (as : List SymbolId) (body : Ty) : StableNext body (.annotated as body)
  | expansion {pre next : Ty} {s : SymbolId} {args : List Ty}
      (ordinary : s ≠ Known.nothing ∧ s ≠ Known.singleton) (isAlias : (t.get s).isAliasType = true)
      (expands : Converges (normalize · (.ref pre s args)) t next t)
      (other : next ≠ .ref pre s args) : StableNext next (.ref pre s args)

/-- Whether the second type excludes null is asked of the first. -/
inductive NullNext : Ty → Ty → Prop where
  | annotated (as : List SymbolId) (body : Ty) : NullNext body (.annotated as body)
  | path {pre next : Ty} {s : SymbolId} (notModule : (t.flags s).has .module = false)
      (stands : Converges (underlying · (.single pre s)) t next t) : NullNext next (.single pre s)
  | expansion {pre next : Ty} {s : SymbolId} {args : List Ty} (ordinary : s ≠ Known.nothing)
      (isAlias : (t.get s).isAliasType = true) (expands : Converges (normalize · (.ref pre s args))
      t next t) (other : next ≠ .ref pre s args) : NullNext next (.ref pre s args)
  | bound {pre next : Ty} {s : SymbolId} {args : List Ty} (ordinary : s ≠ Known.nothing)
      (notAlias : (t.get s).isAliasType = false) (abstract : (t.get s).isAbstractType = true)
      (bounded : Converges (upperBound · (.ref pre s args)) t next t)
      (other : next ≠ .ref pre s args) : NullNext next (.ref pre s args)

/-- The classes of the second type are those of the first. -/
inductive ClassesNext : Ty → Ty → Prop where
  | bound {ty widened next : Ty} {s : SymbolId} (symbol : Converges (typeSymbol · ty) t s t)
      (abstract : (t.get s).isAbstractType = true) (widens : Converges (widen · ty) t widened t)
      (bounded : Converges (upperBound · widened) t next t)
      (other : next ≠ ty) : ClassesNext next ty

end SymbolTable

theorem notClass {r : SymbolRecord} (h : r.isAliasType = true ∨ r.isAbstractType = true) :
    r.isClass = false ∧ r.isModuleClass = false := by
  simp only [SymbolRecord.isAliasType, SymbolRecord.isAbstractType,
    SymbolRecord.isClass, SymbolRecord.isModuleClass] at h ⊢
  cases hk : r.kind <;> simp_all [SymbolKind.isClass]

/-! ## Walks and chains -/

section Rounds

variable {α : Type} {t : SymbolTable} {x y : Nat → SymM α}

/-- `x` has the answer of `y`, and needs no less fuel. -/
structure EndsAs (t : SymbolTable) (x y : Nat → SymM α) : Prop where
  forth {a : α} {t' : SymbolTable} : Converges y t a t' → Converges x t a t'
  back {n : Nat} {a : α} {t' : SymbolTable} : x n t = .ok a t' → y n t = .ok a t'

namespace EndsAs

theorem refl (x : Nat → SymM α) : EndsAs t x x := ⟨id, id⟩

theorem bind {β : Type} {z : Nat → SymM β} {b : β} {f : Nat → β → SymM α} (hz : Converges z t b t)
    (h : EndsAs t (f · b) y) : EndsAs t (fun n => z n >>= f n) y := by
  refine ⟨fun ends => hz.bind (h.forth ends), fun run => ?_⟩
  obtain ⟨b', s, first, rest⟩ := exists_of_bind run
  obtain ⟨rfl, rfl⟩ := hz.only _ b' s first
  exact h.back rest

theorem after {β : Type} {z : SymM β} {b : β} {f : Nat → β → SymM α} (hz : z t = .ok b t)
    (h : EndsAs t (f · b) y) : EndsAs t (fun n => z >>= f n) y := .bind (.const hz) h

theorem if_pos {c : Prop} [Decidable c] {z : Nat → SymM α} (hc : c) (h : EndsAs t x y) :
    EndsAs t (fun n => if c then x n else z n) y := by
  simpa only [hc, if_true] using h

theorem if_neg {c : Prop} [Decidable c] {z : Nat → SymM α} (hc : ¬ c) (h : EndsAs t x y) :
    EndsAs t (fun n => if c then z n else x n) y := by
  simpa only [hc, if_false] using h

end EndsAs

/-- `f` walks along `next` through the types of `D`: at a type without a next one it ends, at any
other it ends as the walk from the next one does. -/
structure Walk (t : SymbolTable) (next : Ty → Ty → Prop)
    (D : Ty → Prop) (f : Nat → Ty → SymM α) : Prop where
  zero (ty : Ty) (a : α) (t' : SymbolTable) : f 0 ty t ≠ .ok a t'
  last {ty : Ty} : D ty → (∀ ty', ¬ next ty' ty) → Terminates t fun n => f (n + 1) ty
  inside {ty ty' : Ty} : D ty → next ty' ty → D ty'
  endsAs {ty ty' : Ty} : D ty → next ty' ty → EndsAs t (fun n => f (n + 1) ty) (f · ty')

variable {next : Ty → Ty → Prop} {D : Ty → Prop} {f : Nat → Ty → SymM α}

namespace Walk

variable (w : Walk t next D f) {ty : Ty}
include w

/-- Each round takes one unit of the fuel that was enough. -/
theorem acc_of_run {n : Nat} {a : α} {t' : SymbolTable}
    (h : D ty) (run : f n ty t = .ok a t') : Acc next ty := by
  induction n generalizing ty with
  | zero => exact absurd run (w.zero ty a t')
  | succ n ih =>
    refine .intro ty fun ty' steps => ?_
    exact ih (w.inside h steps) ((w.endsAs h steps).back run)

theorem terminates_of_acc (h : D ty) (acc : Acc next ty) : Terminates t (f · ty) := by
  induction acc with
  | intro ty _ ih =>
    refine .step (w.zero ty) ?_
    by_cases goesOn : ∃ ty', next ty' ty
    · obtain ⟨ty', steps⟩ := goesOn
      obtain ⟨a, t', ends, same⟩ := ih ty' steps (w.inside h steps)
      exact ⟨a, t', (w.endsAs h steps).forth ends, same⟩
    · exact w.last h fun ty' steps => goesOn ⟨ty', steps⟩

/-- A walk ends where the chain does. -/
theorem terminates_iff_acc (h : D ty) : Terminates t (f · ty) ↔ Acc next ty := by
  constructor
  · rintro ⟨a, t', ends, -⟩
    obtain ⟨n, enough⟩ := ends.enough
    exact w.acc_of_run h (enough n (Nat.le_refl n))
  · exact w.terminates_of_acc h

end Walk

end Rounds

/-! ## Members -/

/-- Members are looked for in what the wrappers of a type are around. -/
def Ty.bare : Ty → Ty
  | .exist _ body | .annotated _ body | .notNull body => body.bare
  | ty => ty

theorem SymbolTable.FirstOrder.bare {t : SymbolTable}
    {ty : Ty} (h : t.FirstOrder ty) : t.FirstOrder ty.bare := by
  induction h with
  | annotated _ ih | notNull _ ih => exact ih
  | _ =>
    rw [Ty.bare]
    · constructor <;> assumption
    all_goals nofun

theorem memberOwners_bare {t : SymbolTable} {ty : Ty} (h : t.FirstOrder ty) (n : Nat) :
    memberOwners n ty = widen n ty.bare >>= baseClassesOf n := by
  induction h with
  | annotated _ ih | notNull _ ih => exact ih
  | _ => rfl

section Walks

variable {t : SymbolTable} (ht : t.FirstOrderDeclarations) {ty : Ty}
include ht

theorem normalize_converges (h : t.FirstOrder ty) :
    ∃ ty', Converges (normalize · ty) t ty' t ∧ t.Formed ty' :=
  (normalizeUpTo_ends ht Limits.aliasSteps h).converges

theorem upperBound_converges (h : t.FirstOrder ty) :
    ∃ ty', Converges (upperBound · ty) t ty' t ∧ t.FirstOrder ty' :=
  (upperBound_ends ht h).converges

theorem typeSymbol_converges (h : t.Formed ty) : ∃ s, Converges (typeSymbol · ty) t s t := by
  obtain ⟨s, t', ends, rfl⟩ := typeSymbolUpTo_ends ht Limits.aliasSteps h
  exact ⟨s, ends⟩

theorem widen_converges (h : t.FirstOrder ty) : ∃ ty', Converges (widen · ty) t ty' t ∧
    t.FirstOrder ty' :=
  (widenUpTo_ends ht Limits.aliasSteps h).converges

theorem underlying_converges (h : t.FirstOrder ty) :
    ∃ ty', Converges (underlying · ty) t ty' t ∧ t.FirstOrder ty' :=
  (underlying_ends ht h).converges

theorem isStable_walk : Walk t t.StableNext t.Formed isStable := by
  refine ⟨fun _ _ _ => nofun, fun h none => ?_, fun h steps => ?_, fun h steps => ?_⟩
  · cases h with
    | poly h => exact .pure rfl
    | proper h =>
      cases h with
      | notNull inner => exact absurd (.notNull _) (none _)
      | annotated inner => exact absurd (.annotated _ _) (none _)
      | @ref pre s args path owned simple hargs =>
        have h : t.FirstOrder (.ref pre s args) := .ref path owned simple hargs
        refine .ite (fun _ => .pure rfl) fun ordinary =>
          .after rfl (.ite (fun isAlias => ?_) fun _ => .ite (fun _ => ?_) fun _ => .pure rfl)
        · obtain ⟨expanded, expands, _⟩ := normalize_converges ht h
          refine .through expands (.ite (fun _ => .pure rfl) fun other => ?_)
          exact absurd (.expansion (by simpa using ordinary) isAlias expands other) (none _)
        · obtain ⟨hi, bounded, hhi⟩ := upperBound_converges ht h
          obtain ⟨c, symbol⟩ := typeSymbol_converges ht (.proper hhi)
          exact .through bounded (.through symbol (.ite (fun _ => .pure rfl) fun _ =>
            isNonBottomSubClass_ends c _ t))
      | _ => exact .pure rfl
  · cases h with
    | poly => cases steps
    | proper h =>
      cases steps with
      | notNull | annotated => exact .proper (h.parts _ List.mem_cons_self)
      | expansion _ _ expands _ => exact expands.holds (normalize_converges ht h)
  · cases steps with
    | notNull body | annotated as body => exact .refl _
    | expansion ordinary isAlias expands other =>
      exact .if_neg (by simp [ordinary])
        (.after rfl (.if_pos isAlias (.bind expands (.if_neg other (.refl _)))))

theorem isNotNull_walk : Walk t t.NullNext t.Formed isNotNull := by
  refine ⟨fun _ _ _ => nofun, fun h none => ?_, fun h steps => ?_, fun h steps => ?_⟩
  · cases h with
    | poly h => exact .pure rfl
    | proper h =>
      cases h with
      | annotated inner => exact absurd (.annotated _ _) (none _)
      | @single pre s path owned simple =>
        obtain ⟨next, stands, _⟩ := underlying_converges ht (.single path owned simple)
        refine .after rfl (.ite (fun _ => .pure rfl) fun notModule => ?_)
        exact absurd (.path (by simpa using notModule) stands) (none _)
      | @ref pre s args path owned simple hargs =>
        have h : t.FirstOrder (.ref pre s args) := .ref path owned simple hargs
        refine .after rfl (.ite (fun _ => .pure rfl) fun ordinary => .ite (fun _ => ?_) fun _ =>
          .ite (fun isAlias => ?_) fun notAlias => .ite (fun abstract => ?_) fun _ => .pure rfl)
        · refine .bind (isNonBottomSubClass_ends s _ t) fun _ t' same =>
            .ite (fun _ => .pure same) fun _ => ?_
          exact (isNonBottomSubClass_ends s _ t').imp fun _ _ same' => same'.trans same
        · obtain ⟨expanded, expands, _⟩ := normalize_converges ht h
          refine .through expands (.ite (fun _ => .pure rfl) fun other => ?_)
          exact absurd (.expansion (by simp_all) isAlias expands other) (none _)
        · obtain ⟨hi, bounded, _⟩ := upperBound_converges ht h
          refine .through bounded (.ite (fun _ => .pure rfl) fun other => ?_)
          exact absurd (.bound (by simp_all) (by simpa using notAlias) abstract bounded other)
            (none _)
      | _ => exact .pure rfl
  · cases h with
    | poly => cases steps
    | proper h =>
      cases steps with
      | annotated => exact .proper (h.parts _ List.mem_cons_self)
      | path _ stands => exact .proper (stands.holds (underlying_converges ht h))
      | expansion _ _ expands _ => exact expands.holds (normalize_converges ht h)
      | bound _ _ _ bounded _ => exact .proper (bounded.holds (upperBound_converges ht h))
  · cases steps with
    | annotated as body => exact .refl _
    | path notModule stands =>
      exact .after rfl (.if_neg (by simp [notModule]) (.bind stands (.refl _)))
    | expansion ordinary isAlias expands other =>
      obtain ⟨notClass, notModule⟩ := notClass (.inl isAlias)
      exact .after rfl (.if_neg (by simp [ordinary, notModule])
        (.if_neg (by simp [notClass]) (.if_pos isAlias (.bind expands (.if_neg other (.refl _))))))
    | bound ordinary notAlias abstract bounded other =>
      obtain ⟨notClass, notModule⟩ := notClass (.inr abstract)
      exact .after rfl (.if_neg (by simp [ordinary, notModule])
        (.if_neg (by simp [notClass]) (.if_neg (by simp [notAlias])
        (.if_pos abstract (.bind bounded (.if_neg other (.refl _)))))))

theorem baseClassesOf_walk : Walk t t.ClassesNext t.FirstOrder baseClassesOf := by
  have code : ∀ {ty}, t.FirstOrder ty → ∀ n, baseClassesOf (n + 1) ty = do
      let s ← typeSymbol n ty
      let r ← SymM.record s
      if r.isClass then SymM.baseClasses s
      else if r.isAbstractType then
        let hi ← upperBound n (← widen n ty)
        if hi = ty then return []
        baseClassesOf n hi
      else return [] := by
    intro ty h n
    cases h <;> rfl
  refine ⟨fun _ _ _ => nofun, fun h none => ?_, fun h steps => ?_, fun h steps => ?_⟩
  · simp only [code h]
    obtain ⟨s, symbol⟩ := typeSymbol_converges ht (.proper h)
    refine .through symbol (.after rfl (.ite (fun _ => baseClasses_ends s t) fun _ =>
      .ite (fun abstract => ?_) fun _ => .pure rfl))
    obtain ⟨widened, widens, hwidened⟩ := widen_converges ht h
    obtain ⟨hi, bounded, _⟩ := upperBound_converges ht hwidened
    refine .through widens (.through bounded (.ite (fun _ => .pure rfl) fun other => ?_))
    exact absurd (.bound symbol abstract widens bounded other) (none _)
  · cases steps with
    | bound _ _ widens bounded _ =>
      exact bounded.holds (upperBound_converges ht (widens.holds (widen_converges ht h)))
  · cases steps with
    | bound symbol abstract widens bounded other =>
      simp only [code h]
      refine .bind
        symbol (.after rfl (.if_neg (by simp [(notClass (.inr abstract)).1]) (.if_pos abstract ?_)))
      exact .bind widens (.bind bounded (.if_neg other (.refl _)))

theorem acc_of_findMember_run {name : String} {n : Nat} {ms : List SymbolId}
    {t' : SymbolTable} (h : t.FirstOrder ty) (run : findMember n ty name t = .ok ms t') :
    ∃ widened, Converges (widen · ty.bare) t widened t ∧ Acc t.ClassesNext widened := by
  obtain ⟨widened, widens, hwidened⟩ := widen_converges ht h.bare
  rw [findMember, memberOwners_bare h] at run
  obtain ⟨owners, t1, found, _⟩ := exists_of_bind run
  obtain ⟨w, t2, first, classes⟩ := exists_of_bind found
  obtain ⟨rfl, rfl⟩ := widens.only n w t2 first
  exact ⟨w, widens, (baseClassesOf_walk ht).acc_of_run hwidened classes⟩

/-- Members are found where the classes of the widened type are. -/
theorem findMember_terminates_iff (h : t.FirstOrder ty)
      (name : String) : Terminates t (findMember · ty name) ↔
      ∃ widened, Converges (widen · ty.bare) t widened t ∧ Acc t.ClassesNext widened := by
  constructor
  · rintro ⟨ms, t', ends, -⟩
    obtain ⟨n, enough⟩ := ends.enough
    exact acc_of_findMember_run ht h (enough n (Nat.le_refl n))
  · rintro ⟨w, widens, acc⟩
    have hwidened := widens.holds (widen_converges ht h.bare)
    simp only [findMember, memberOwners_bare h, bind_assoc]
    refine .through widens (.bind ((baseClassesOf_walk ht).terminates_of_acc hwidened acc)
      fun owners t' same => ?_)
    exact .after rfl (.pure same)

end Walks

end Conformance

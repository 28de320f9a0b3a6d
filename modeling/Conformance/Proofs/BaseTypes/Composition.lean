import Conformance.Proofs.Hierarchy
import Conformance.Proofs.Ranges.Indices
import Conformance.Proofs.Replacement

/-! # Base types and linearizations

A base type is found by a walk over types, from a reference to its declared parents; a linearization
by a walk over classes, from a class to the classes behind its parents. Where the parents of a class
are classes applied to all their arguments, the walk over types goes from class to class as the
other does, and on its way it puts the arguments it has for the parameters. The walk enters symbols
where it substitutes under a binder, and remembers linearizations; both leave the declarations as
they were. -/

namespace Conformance

variable {args : List Ty} {ty : Ty} {c : SymbolId} {ok : Prop} {fuel : Nat}

namespace SymM

variable {α β : Type}

namespace Attains

variable {I : SymbolTable → Prop} {ok : Prop} {x y : SymM α} {P Q : α → Prop}

/-- The first result that is present, if `P` holds of those that are present and `N` of what has
none. -/
theorem firstPresent {f : α → SymM Ty} {as : List α}
    {N : α → Prop} {P : Ty → Prop} (present : ∀ ty, P ty → ty.isPresent = true)
    (h : ∀ a ∈ as, Attains I ok (f a) fun ty => ty = .noType ∧ N a ∨ P ty) :
    Attains I ok (View.firstPresent f as) fun ty => (ty = .noType ∧ ∀ a ∈ as, N a) ∨ P ty := by
  induction as with
  | nil => exact .pure (.inl ⟨rfl, fun _ mem => nomatch mem⟩)
  | cons a as ih =>
    unfold View.firstPresent
    refine (h a List.mem_cons_self).bind fun ty hty => ?_
    obtain ⟨rfl, absent⟩ | found := hty
    · refine (ih fun b hb => h b (List.mem_cons_of_mem _ hb)).imp fun ty hty =>
        hty.imp_left fun none => ⟨none.1, fun b hb => ?_⟩
      obtain rfl | hb := List.mem_cons.1 hb
      · exact absent
      · exact none.2 b hb
    · rw [if_pos (present ty found)]
      exact .pure (.inr found)

end Attains

end SymM

/-! ## What is found -/

namespace Ty

/-- The type without its outer quantifiers. -/
def withoutQuantifiers : Ty → Ty
  | .exist _ body => body.withoutQuantifiers
  | ty => ty

/-- A reference to `cls`, or a refined type whose refinement class is `cls`. -/
def IsOf (cls : SymbolId) : Ty → Prop
  | .ref _ s _ => s = cls
  | .refined _ _ s => s = cls
  | _ => False

@[simp] theorem withoutQuantifiers_existential (qs : List SymbolId) (ty : Ty) :
    (existential qs ty).withoutQuantifiers = ty.withoutQuantifiers := by
  unfold existential
  split
  · rfl
  · rw [withoutQuantifiers]

theorem IsOf.isPresent {cls : SymbolId} (h : ty.withoutQuantifiers.IsOf cls) :
    ty.isPresent = true := by
  cases ty <;> first | rfl | exact h.elim

end Ty

namespace View

open SymM

variable (fuel : Nat) (see : View) (cls : SymbolId)

theorem baseTypeUpTo_names (n : Nat) (ty : Ty) : Attains
    (fun _ => True) False (baseTypeUpTo fuel see cls n ty) fun found =>
      found = .noType ∨ found.withoutQuantifiers.IsOf cls := by
  have first : ∀ {α : Type} {f : α → SymM Ty} {as : List α}, (∀ a, Attains (fun _ => True)
      False (f a) fun ty => ty = .noType ∨ ty.withoutQuantifiers.IsOf cls) → Attains (fun _ => True)
      False (firstPresent f as) fun ty => ty = .noType ∨ ty.withoutQuantifiers.IsOf cls := by
    intro α f as h
    refine (Attains.firstPresent (N := fun _ => True) (fun _ => Ty.IsOf.isPresent) fun a _ =>
      ?_).imp fun ty hty => hty.imp_left And.left
    exact (h a).imp fun ty hty => hty.imp_left fun none => ⟨none, trivial⟩
  induction n generalizing ty with
  | zero => exact .pure (.inl rfl)
  | succ n ih =>
    unfold baseTypeUpTo
    split
    · next pre s args =>
      refine .ite (fun same => .pure (.inr ?_)) fun _ => .bind .any fun r _ => ?_
      · exact beq_iff_eq.1 same
      · refine .ite (fun _ => .bind .any fun sub _ =>
          .ite (fun _ => .pure (.inl rfl)) fun _ => first fun parent => ?_) fun _ => ?_
        · refine .bind .any fun t _ => .ite (fun _ => .pure (.inl rfl)) fun _ => ?_
          refine .bind .any fun sub _ => .ite (fun _ => .pure (.inl rfl)) fun _ => ?_
          refine .bind .any fun seen _ => ?_
          exact .ite (fun _ => .bind .any fun seen' _ => ih seen') fun _ =>
            .bind .any fun seen' _ => ih seen'
        · refine .ite (fun _ => .bind .any fun expanded _ =>
            .ite (fun _ => .pure (.inl rfl)) fun _ => ih expanded) fun _ => ?_
          refine .ite (fun _ => .bind .any fun bounds _ => ?_) fun _ => .pure (.inl rfl)
          exact .ite (fun _ => .pure (.inl rfl)) fun _ => ih _
    · next parents decls refinement =>
        exact .ite (fun same => .pure (.inr (beq_iff_eq.1 same))) fun _ => first ih
    · next qs body =>
      refine (ih body).bind fun found hfound => .ite (fun _ => .pure hfound) fun present =>
        .bind .any fun t _ => .pure ?_
      refine hfound.imp (fun none => ?_) fun isOf => ?_
      · rw [none] at present
        exact absurd rfl present
      · rwa [Ty.withoutQuantifiers_existential]
    · exact .bind .any fun body _ => ih body
    · exact .bind .any fun body _ => ih body
    · exact .bind .any fun body _ => ih body
    · exact .bind .any fun body _ => ih body
    · exact .bind .any fun body _ => ih body
    · exact ih _
    · exact .pure (.inl rfl)

end View

/-! ## Hierarchies of applied classes -/

namespace SymbolTable

variable (t : SymbolTable)

/-- A reference to a class, applied to all its arguments. -/
def IsAppliedClass : Ty → Prop
  | .ref _ d args => (t.get d).isClass = true ∧ args.length = (t.tparams d).length
  | _ => False

instance : DecidablePred t.IsAppliedClass := fun ty => by
  unfold IsAppliedClass
  split <;> infer_instance

/-- A class of a package, whose parents are classes applied to all their arguments. -/
structure DeclaresApplied (c : SymbolId) : Prop where
  isClass : (t.get c).isClass = true
  owned : (t.get (t.owner c)).isPackageClass = true
  params : ∀ p ∈ t.tparams c, (t.get p).isClass = false
  parents : ∀ p ∈ (t.get c).parents, t.IsAppliedClass p

instance (c : SymbolId) : Decidable (t.DeclaresApplied c) :=
  decidable_of_iff ((t.get c).isClass = true ∧ (t.get (t.owner c)).isPackageClass = true ∧
    (∀ p ∈ t.tparams c, (t.get p).isClass = false) ∧ ∀ p ∈ (t.get c).parents, t.IsAppliedClass p)
    ⟨fun h => ⟨h.1, h.2.1, h.2.2.1, h.2.2.2⟩, fun h => ⟨h.isClass, h.owned, h.params, h.parents⟩⟩

/-- Every class above `c` has parents of that form, and no chain of them has more than `n`
classes. -/
structure InheritsApplied (n : Nat) (c : SymbolId) : Prop where
  classes (d : SymbolId) : t.IsBase c d → t.DeclaresApplied d
  chains : t.ChainsWithin n c

/-- The arguments `bs` of `d` are composed along a path of declared parents from `c[args]` on: at
each class the declared arguments of the next parent, with the parameters of the class replaced by
the arguments reached so far. -/
inductive Composes (R : List SymbolId → List Ty → Ty → Ty → Prop) :
    SymbolId → List Ty → SymbolId → List Ty → Prop
  | here (c : SymbolId) (args : List Ty) : Composes R c args c args
  | parent {c d e : SymbolId} {pre : Ty} {args declared actual bs : List Ty}
    (mem : .ref pre e declared ∈ (t.get c).parents) (replaced : List.Forall₂ (R (t.tparams c) args)
    declared actual) (rest : Composes R e actual d bs) : Composes R c args d bs

variable {t} {n : Nat} {c d e : SymbolId}

theorem IsAppliedClass.exists_ref (h : t.IsAppliedClass ty) : ∃ pre d args, ty = .ref pre d args ∧
    (t.get d).isClass = true ∧ args.length = (t.tparams d).length := by
  cases ty with
  | ref pre d args => exact ⟨pre, d, args, rfl, h.1, h.2⟩
  | _ => exact h.elim

theorem parentClass_ref (hd : (t.get d).isClass = true)
    (pre : Ty) (args : List Ty) : t.parentClass (.ref pre d args) = d := by
  show t.parentClassUpTo (127 + 1) _ = _
  rw [parentClassUpTo, if_pos hd]

theorem Standalone.present_of_isClass (ht : t.Standalone)
    (hd : (t.get d).isClass = true) : d.isPresent = true := by
  refine decide_eq_true (Nat.pos_of_ne_zero fun zero => ?_)
  obtain rfl : d = .none := congrArg SymbolId.mk zero
  exact absurd hd (Bool.eq_false_iff.1 ht.absent)

/-- The classes directly above are those that the declared parents refer to. -/
theorem DeclaresApplied.directBase_iff (hc : t.DeclaresApplied c) (ht : t.Standalone) :
    t.DirectBase c d ↔ ∃ pre args, .ref pre d args ∈ (t.get c).parents := by
  rw [SymbolTable.directBase_iff hc.isClass]
  constructor
  · rintro ⟨mem, -⟩
    obtain ⟨p, hp, rfl⟩ := List.mem_map.1 mem
    obtain ⟨pre, d, args, rfl, hd, -⟩ := (hc.parents p hp).exists_ref
    rw [parentClass_ref hd]
    exact ⟨pre, args, hp⟩
  · rintro ⟨pre, args, hp⟩
    have hd : (t.get d).isClass = true := (hc.parents _ hp).1
    exact ⟨List.mem_map.2 ⟨_, hp, parentClass_ref hd pre args⟩, ht.present_of_isClass hd, hd⟩

theorem DeclaresApplied.notParam (hc : t.DeclaresApplied c)
    {pre : Ty} (mem : .ref pre d args ∈ (t.get c).parents) : d ∉ t.tparams c := by
  intro param
  have isClass : (t.get d).isClass = true := (hc.parents _ mem).1
  rw [hc.params d param] at isClass
  cases isClass

namespace InheritsApplied

theorem here (h : t.InheritsApplied n c) : t.DeclaresApplied c := h.classes c .refl

theorem step (h : t.InheritsApplied (n + 1) c) (hd : t.DirectBase c d) : t.InheritsApplied n d :=
  ⟨fun e base => h.classes e (.head hd base), h.chains.step hd⟩

end InheritsApplied

/-- A path of parents is a way up in the hierarchy. -/
theorem Composes.isBase {R : List SymbolId → List Ty → Ty → Ty → Prop}
    {bs : List Ty} (h : t.Composes R c args d bs) (ht : t.Standalone)
    (classes : ∀ e, t.IsBase c e → t.DeclaresApplied e) : t.IsBase c d := by
  induction h with
  | here => exact .refl
  | parent mem _ _ ih =>
    have step := ((classes _ .refl).directBase_iff ht).2 ⟨_, _, mem⟩
    exact .head step (ih fun e base => classes e (.head step base))

end SymbolTable

open SymbolTable

namespace SymM

variable {t : SymbolTable} (ht : t.Standalone) (honest : t.Honest) (layered : t.Layered)
include ht honest layered

/-- While the table grows, the base classes of a declared class stay the classes above it. -/
theorem baseClasses_linearUpTo (hc : (t.get c).isClass = true) :
    Gives t.Grown (baseClasses c) (t.linearUpTo Limits.linearizationDepth c) := by
  intro t1 grown
  obtain ⟨rank, hr⟩ := layered.exists_rank
  obtain ⟨t2, run, -, grown'⟩ := baseClasses_recalls ht layered grown c t1 rfl grown
  refine ⟨t2, ?_, grown'⟩
  rw [run, grown.get_eq (ht.grown.lt_of_isClass ht hc),
    hr.lineage_eq, honest.lineageUpTo_eq hr fun _ => hr.bounded c]
  rfl

omit ht honest in
theorem mem_linearUpTo (hc : (t.get c).isClass = true) (d : SymbolId) :
    d ∈ t.linearUpTo Limits.linearizationDepth c ↔ t.IsBase c d := by
  refine (linearUpTo_spec hc fun cs chain => ?_).2.1 d
  exact layered _ (chain.imp fun _ _ step => step.1)

theorem isNonBottomSubClass_isBase (hc : (t.get c).isClass = true) (d : SymbolId) :
    Attains t.Grown ok (isNonBottomSubClass c d) (· = true ↔ t.IsBase c d) := by
  unfold isNonBottomSubClass
  refine .ite (fun same => ?_) fun _ => ?_
  · obtain rfl := beq_iff_eq.1 same
    exact .pure (iff_of_true rfl .refl)
  · have bases := gives_iff.1 (baseClasses_linearUpTo ht honest layered hc)
    refine (bases.of_ok fun _ => trivial).bind fun cs hcs => .pure ?_
    rw [hcs, List.contains_iff_mem]
    exact mem_linearUpTo layered hc d

omit honest in
theorem substTypes_grows {ps : List SymbolId} {P : Ty → Prop}
    (h : ∀ t1, t.Grown t1 → match substTypes fuel ps args ty t1 with
      | .ok r _ => P r
      | .error .. => ¬ ok) : Attains t.Grown ok (substTypes fuel ps args ty) P := by
  intro t1 grown
  have asked : t.Grown ((substTypes fuel ps args ty).after t1) :=
    grown.asked ht layered (.table fuel (.substTypes ps args ty) rfl t1)
  have result := h t1 grown
  unfold SymM.after at asked
  cases run : substTypes fuel ps args ty t1 with
  | ok r t2 =>
    rw [run] at asked result
    exact ⟨asked, result⟩
  | error e t2 =>
    rw [run] at result
    exact result

omit honest layered in
theorem asSeenFrom_package_attains (hfuel : ok → 0 < fuel) {owner : SymbolId}
    (package : (t.get owner).isPackageClass = true) (ty pre : Ty) :
    Attains t.Grown ok (asSeenFrom fuel ty pre owner) (· = ty) := by
  intro t1 grown
  cases fuel with
  | zero => exact fun hok => absurd (hfuel hok) (Nat.lt_irrefl 0)
  | succ fuel =>
    have known : owner.val < t.size := by
      refine ht.grown.lt_of_isClass ht ?_
      rw [SymbolRecord.isClass, beq_iff_eq.1 package]
      rfl
    rw [asSeenFrom_of_package (grown.get_eq known ▸ package)]
    exact ⟨grown, rfl⟩

end SymM

namespace View

open SymM

variable {t : SymbolTable} (ht : t.Standalone) (honest : t.Honest) (layered : t.Layered)
  {R : List SymbolId → List Ty → Ty → Ty → Prop} {fuel : Nat} {ok : Prop}

/-- What a reference to `d` among the parents of a class becomes for arguments of the class. -/
def Replaces (R : List SymbolId → List Ty → Ty → Ty → Prop)
    (ps : List SymbolId) (args : List Ty) (d : SymbolId) (declared : List Ty) (ty : Ty) : Prop :=
  ∃ pre actual, ty = .ref pre d actual ∧ List.Forall₂ (R ps args) declared actual

/-- In declared parents, substitution replaces the arguments as `R` says. -/
def ReplacesAbove (t : SymbolTable) (R : List SymbolId → List Ty → Ty → Ty → Prop)
    (fuel : Nat) (ok : Prop) (c : SymbolId) : Prop :=
  ∀ e, t.IsBase c e → ∀ pre d declared, .ref pre d declared ∈ (t.get e).parents →
    ∀ args, args.length = (t.tparams e).length → Attains t.Grown ok (substTypes
    fuel (t.tparams e) args (.ref pre d declared)) (Replaces R (t.tparams e) args d declared)

include ht honest layered

/-- The walk from a reference to a class reaches the classes above it, and no others. -/
theorem baseTypeUpTo_composes (hfuel : ok → 0 < fuel) {n : Nat} (hc : t.InheritsApplied n c)
    (replaces : ReplacesAbove t R fuel ok c) (arity : args.length = (t.tparams c).length) (pre : Ty)
    (d : SymbolId) {hops : Nat} (enough : n ≤ hops) :
    Attains t.Grown ok (baseTypeUpTo fuel (asSeenFrom fuel) d hops (.ref pre c args)) fun found =>
      found = .noType ∧ ¬ t.IsBase c d ∨ ∃ pre' bs, found = .ref pre' d bs ∧
        t.Composes R c args d bs := by
  induction n generalizing c args pre hops with
  | zero => exact absurd hc.chains.pos (Nat.lt_irrefl 0)
  | succ n ih =>
    obtain ⟨hops, rfl⟩ : ∃ m, hops = m + 1 := ⟨hops - 1, by omega⟩
    have declared := hc.here
    have get_eq : ∀ {t1 s}, t.Grown t1 → (t.get s).isClass = true → t1.get s = t.get s :=
      fun grown hs =>
      grown.get_eq (ht.grown.lt_of_isClass ht hs)
    unfold baseTypeUpTo
    refine .ite (fun same => ?_) fun other => .record_bind fun t1 grown1 => ?_
    · obtain rfl := beq_iff_eq.1 same
      exact .pure (.inr ⟨pre, args, rfl, .here c args⟩)
    rw [get_eq grown1 declared.isClass, if_pos declared.isClass]
    refine (isNonBottomSubClass_isBase ht honest layered declared.isClass d).bind fun sub hsub => ?_
    refine .ite (fun not => .pure (.inl ⟨rfl, fun base => ?_⟩)) fun sub => ?_
    · rw [hsub.2 base] at not
      cases not
    have base : t.IsBase c d := hsub.1 (by simpa using sub)
    -- a parent below `d` is searched on, the others are passed by
    have parents : ∀ p ∈ (t.get c).parents, Attains t.Grown ok (do
        let parentClass := (← get).parentClass p
        if !parentClass.isPresent then return .noType
        if !(← isNonBottomSubClass parentClass d) then return .noType
        let seen ← asSeenFrom fuel p pre (t.get c).owner
        let seen ← if args.length = (t.get c).tparams.length then
          substTypes fuel (t.get c).tparams args seen else pure seen
        baseTypeUpTo fuel (asSeenFrom fuel) d hops seen) fun found =>
          found = .noType ∧ ¬ t.IsBase (t.parentClass p) d ∨
            ∃ pre' bs, found = .ref pre' d bs ∧ t.Composes R c args d bs := by
      intro p hp
      obtain ⟨pre', e, gs, rfl, he, arity'⟩ := (declared.parents p hp).exists_ref
      have step : t.DirectBase c e := (declared.directBase_iff ht).2 ⟨pre', gs, hp⟩
      rw [parentClass_ref he]
      refine .get_bind fun t2 grown2 => ?_
      have he2 : (t2.get e).isClass = true := get_eq grown2 he ▸ he
      dsimp only
      rw [parentClass_ref he2, ht.present_of_isClass he]
      refine (isNonBottomSubClass_isBase ht honest layered he d).bind fun sub hsub => ?_
      refine .ite (fun not => .pure (.inl ⟨rfl, fun base => ?_⟩)) fun _ => ?_
      · rw [hsub.2 base] at not
        cases not
      refine (asSeenFrom_package_attains ht hfuel declared.owned _ pre).bind fun seen hseen => ?_
      subst hseen
      rw [if_pos (show args.length = (t.get c).tparams.length from arity)]
      refine (replaces c .refl _ e gs hp args arity).bind fun seen hseen => ?_
      obtain ⟨pre'', actual, rfl, replaced⟩ := hseen
      have above : ReplacesAbove t R fuel ok e := fun f base => replaces f (.head step base)
      have arity'' : actual.length = (t.tparams e).length := replaced.length_eq ▸ arity'
      refine (ih (hc.step step) above arity'' pre'' (by omega)).imp fun found hfound =>
        hfound.imp_right ?_
      rintro ⟨pre3, bs, rfl, composes⟩
      exact ⟨pre3, bs, rfl, .parent hp replaced composes⟩
    refine (Attains.firstPresent ?_ parents).imp fun found hfound => hfound.imp_left fun none => ?_
    · rintro _ ⟨_, _, rfl, -⟩
      rfl
    · -- the way up to `d` starts with one of the parents
      obtain rfl | ⟨e, step, rest⟩ := base.cases_head
      · exact absurd (beq_self_eq_true c) other
      · obtain ⟨pre', gs, hp⟩ := (declared.directBase_iff ht).1 step
        have passed := none.2 _ hp
        rw [parentClass_ref step.isClass] at passed
        exact absurd rest passed

end View

/-! ## Replacement of parameters -/

namespace SymbolTable

variable (t : SymbolTable)

/-- `g'` is what substitution gives for `g`, while the table may have grown. -/
def Replaced (ps : List SymbolId) (args : List Ty) (g g' : Ty) : Prop :=
  ∃ fuel t1 t2, t.Grown t1 ∧ substTypes fuel ps args g t1 = .ok g' t2

/-- Substitution in the parents of the classes above `c` comes to an end. -/
def SubstitutesAbove (fuel : Nat) (c : SymbolId) : Prop :=
  ∀ e, t.IsBase c e → ∀ p ∈ (t.get e).parents, ∀ args, args.length = (t.tparams e).length →
    ∀ t1, t.Grown t1 → ∃ p' t2, substTypes fuel (t.tparams e) args p t1 = .ok p' t2

/-- The parents of the classes above `c` bind nothing, and parameters take no arguments in them. -/
def DirectAbove (c : SymbolId) : Prop := ∀ e, t.IsBase c e →
    ∀ p ∈ (t.get e).parents, p.isDirect (t.tparams e) = true

end SymbolTable

namespace View

open SymM

variable {t : SymbolTable} (ht : t.Standalone) (layered : t.Layered) (fuel : Nat) {c : SymbolId}
include ht layered

/-- A reference to a class stays one: a class is no parameter. -/
theorem substTypes_ref_replaces {ps : List SymbolId}
    {d : SymbolId} (notParam : d ∉ ps) (args : List Ty) (pre : Ty)
    (declared : List Ty) : Attains t.Grown False (substTypes fuel ps args (.ref pre d declared))
      (Replaces t.Replaced ps args d declared) := by
  cases fuel with
  | zero => exact fun _ _ => id
  | succ fuel =>
    have anywhere : ∀ g, Attains t.Grown False (substTypes fuel ps args g)
      (t.Replaced ps args g) := by
      intro g
      refine substTypes_grows ht layered fun t1 grown => ?_
      split
      next run => exact ⟨fuel, t1, _, grown, run⟩
      next => exact id
    unfold substTypes
    refine .ite (fun trivially => .pure ?_) fun _ => ?_
    · obtain none | sentinel := Bool.or_eq_true_iff.1 trivially
      · obtain rfl := List.isEmpty_iff.1 none
        exact ⟨pre, declared, rfl, List.forall₂_same.2 fun g _ => ⟨1, t, t, ht.grown, rfl⟩⟩
      · cases sentinel
    · have rebuilt : Attains t.Grown False ((Rebinding.at fuel).mapOver (substTypes fuel ps args)
          (.ref pre d declared)) (Replaces t.Replaced ps args d declared) := by
        refine (anywhere pre).bind fun pre' _ => (Attains.mapM fun g _ => anywhere g).bind
          fun actual replaced => .pure ?_
        split
        next same => exact ⟨pre, declared, rfl, same.2 ▸ replaced⟩
        next => exact ⟨pre', actual, rfl, replaced⟩
      have missing : (ps.zip args).lookup d = none :=
        Option.eq_none_iff_forall_ne_some.2 fun _ found =>
          notParam (List.of_mem_zip (mem_of_lookup found)).1
      by_cases noPrefix : pre = .noPrefix
      · subst noPrefix
        dsimp only
        rw [missing]
        exact rebuilt
      · cases pre <;> first | exact absurd rfl noPrefix | exact rebuilt

theorem replacesAbove_of_substitutes (classes : ∀ e, t.IsBase c e → t.DeclaresApplied e) :
    ReplacesAbove t t.Replaced fuel (0 < fuel ∧ t.SubstitutesAbove fuel c) c := by
  intro e base pre d declared mem args arity t1 grown
  have run := substTypes_ref_replaces ht layered fuel
    ((classes e base).notParam mem) args pre declared t1 grown
  cases ended : substTypes fuel (t.tparams e) args (.ref pre d declared) t1 with
  | ok seen t2 =>
    rw [ended] at run
    exact run
  | error e' t2 =>
    rintro ⟨-, ends⟩
    obtain ⟨_, _, returned⟩ := ends e base _ mem args arity t1 grown
    rw [ended] at returned
    cases returned

omit ht layered in
theorem replacesAbove_of_direct (classes : ∀ e, t.IsBase c e → t.DeclaresApplied e)
    (direct : t.DirectAbove c) (enough : ∀ e, ∀ p ∈ (t.get e).parents, sizeOf p < fuel) :
    ReplacesAbove t (fun ps args g g' => g' = g.replace ps args) fuel True c := by
  intro e base pre d declared mem args arity t1 grown
  rw [substTypes_replace (direct e base _ mem) (enough e _ mem)]
  refine ⟨grown, pre.replace (t.tparams e) args, declared.map (Ty.replace (t.tparams e) args),
    ?_, ?_⟩
  · rw [Ty.replace, Ty.paramType?_of_notMem ((classes e base).notParam mem),
      Option.getD_none, Ty.replaceAll_eq_map]
  · exact List.forall₂_map_right_iff.2 (List.forall₂_same.2 fun _ _ => rfl)

end View

/-- What the search at `d` from `c[args]` finds: a type exactly if `d` is among the classes, and
then `d` applied to arguments composed along a path of parents. -/
def SymbolTable.IsBaseTypeAt (t : SymbolTable) (R : List SymbolId → List Ty → Ty → Ty → Prop)
    (classes : List SymbolId) (c : SymbolId) (args : List Ty) (d : SymbolId) (found : Ty) : Prop :=
  (found ≠ .noType ↔ d ∈ classes) ∧ (found ≠ .noType →
    ∃ pre bs, found = .ref pre d bs ∧ t.Composes R c args d bs)

open SymM in
theorem View.baseType_isBaseTypeAt {t : SymbolTable} (ht : t.Standalone)
    (honest : t.Honest) (layered : t.Layered) {R : List SymbolId → List Ty → Ty → Ty → Prop}
    (hfuel : ok → 0 < fuel) (hc : t.InheritsApplied 65 c)
    (replaces : ReplacesAbove t R fuel ok c) (arity : args.length = (t.tparams c).length)
    (pre : Ty) (d : SymbolId) : Attains t.Grown ok (Conformance.baseType fuel (.ref pre c args) d)
      (t.IsBaseTypeAt R (t.linearUpTo Limits.linearizationDepth c) c args d) := by
  refine (baseTypeUpTo_composes ht honest layered hfuel hc replaces arity pre d (Nat.le_refl _)).imp
    fun found hfound => ?_
  unfold IsBaseTypeAt
  rw [mem_linearUpTo layered hc.here.isClass]
  obtain ⟨rfl, apart⟩ | ⟨pre', bs, rfl, composes⟩ := hfound
  · exact ⟨iff_of_false (absurd rfl) apart, absurd rfl⟩
  · exact ⟨iff_of_true nofun (composes.isBase ht hc.classes), fun _ => ⟨pre', bs, rfl, composes⟩⟩

/-- A base type is absent or, under its quantifiers, a type of the class it is searched for at.
Where the classes above `c` have parents that are classes applied to all their arguments, and no
chain of them is longer than the hops that a search takes, the search from a reference to `c` finds
a type at exactly the base classes of `c`, with arguments composed along a path of parents. It comes
to an end if substitution in the parents does, and with enough fuel wherever the parents bind
nothing. -/
theorem baseType_agrees_with_baseClasses :
    (∀ (fuel : Nat) (ty : Ty) (cls : SymbolId) (t : SymbolTable) (found : Ty) (t' : SymbolTable),
      baseType fuel ty cls t = .ok found t' → found = .noType ∨ found.withoutQuantifiers.IsOf cls) ∧
    ∀ t : SymbolTable, t.Standalone → t.Honest → t.Layered → ∀ c, t.InheritsApplied 65 c →
      ∃ classes, (SymM.baseClasses c).answer? t = some classes ∧
        (∀ fuel pre args d found t', args.length = (t.tparams c).length →
          baseType fuel (.ref pre c args) d t = .ok found t' →
            t.IsBaseTypeAt t.Replaced classes c args d found) ∧
        (∀ fuel pre args d, args.length = (t.tparams c).length → 0 < fuel →
          t.SubstitutesAbove fuel c →
            ∃ found t', baseType fuel (.ref pre c args) d t = .ok found t') ∧
        (t.DirectAbove c → ∃ bound, ∀ fuel, bound ≤ fuel →
          ∀ pre args d, args.length = (t.tparams c).length → ∃ found t',
            baseType fuel (.ref pre c args) d t = .ok found t' ∧
            t.IsBaseTypeAt (fun ps as g g' => g' = g.replace ps as) classes c args d found) := by
  refine ⟨fun fuel ty cls t found t' run => ?_, fun t ht honest layered c hc => ?_⟩
  · have names := View.baseTypeUpTo_names fuel (asSeenFrom fuel)
      cls (Limits.baseTypeDepth + 1) ty t trivial
    have walk : View.baseTypeUpTo fuel (asSeenFrom fuel)
      cls (Limits.baseTypeDepth + 1) ty t = .ok found t' := run
    rw [walk] at names
    exact names.2
  have listed := SymM.baseClasses_linearUpTo ht honest layered hc.here.isClass t ht.grown
  obtain ⟨t1, list, -⟩ := listed
  refine ⟨t.linearUpTo Limits.linearizationDepth c, by rw [SymM.answer?, list], ?_, ?_, ?_⟩
  · intro fuel pre args d found t' arity run
    have search := View.baseType_isBaseTypeAt ht honest layered And.left hc
      (View.replacesAbove_of_substitutes ht layered fuel hc.classes) arity pre d t ht.grown
    rw [run] at search
    exact search.2
  · intro fuel pre args d arity pos ends
    have search := View.baseType_isBaseTypeAt ht honest layered And.left hc
      (View.replacesAbove_of_substitutes ht layered fuel hc.classes) arity pre d t ht.grown
    cases run : baseType fuel (.ref pre c args) d t with
    | ok found t' => exact ⟨found, t', rfl⟩
    | error e t' =>
      rw [run] at search
      exact absurd ⟨pos, ends⟩ search
  · intro direct
    refine ⟨sizeOf (SymbolRecord.absent :: t.records.toList), fun fuel enough pre args d arity =>
      ?_⟩
    have pos : 0 < fuel := Nat.lt_of_lt_of_le (by simp only [List.cons.sizeOf_spec]; omega) enough
    have search := View.baseType_isBaseTypeAt ht honest
      layered (fun _ => pos) hc (View.replacesAbove_of_direct fuel hc.classes direct fun e p hp =>
      Nat.lt_of_lt_of_le (SymM.sizeOf_parent_lt t hp) enough) arity pre d t ht.grown
    generalize baseType fuel (.ref pre c args) d t = r at search ⊢
    cases r with
    | ok found t' => exact ⟨found, t', rfl, search.2⟩
    | error e t' => exact absurd trivial search

/-- `Pair[X, Y]`, `Flipped[A, B] extends Pair[B, A]` and `Named[C] extends Flipped[String, C]`, with
the identifiers 26, 29 and 32. -/
def SymbolTable.flipped : SymbolTable := SymM.after (do
  let pkg ← SymM.newPackage Known.rootClass "flipped"
  let ref (c : SymbolId) (args : List Ty) : Ty := .ref (.this pkg) c args
  let pair ← SymM.newClass pkg "Pair" .empty
  let x ← SymM.newTypeParam pair "X" .covariant
  let y ← SymM.newTypeParam pair "Y" .covariant
  modify fun t => (t.setTParams pair [x, y]).setParents pair [Known.objectType]
  let flipped ← SymM.newClass pkg "Flipped" .empty
  let a ← SymM.newTypeParam flipped "A" .covariant
  let b ← SymM.newTypeParam flipped "B" .covariant
  modify fun t => (t.setTParams flipped [a, b]).setParents
    flipped [ref pair [.ref .noPrefix b [], .ref .noPrefix a []]]
  let named ← SymM.newClass pkg "Named" .empty
  let c ← SymM.newTypeParam named "C" .covariant
  modify fun t => (t.setTParams named [c]).setParents named
    [ref flipped [Known.javaLangRef Known.string, .ref .noPrefix c []]]) .initial

/-- `Named[Int]` is a `Pair[Int, String]`. -/
theorem named_is_flipped_pair :
    let t := SymbolTable.flipped
    let int : Ty := Known.scalaRef Known.int
    let pair : Ty := .ref (.this ⟨24⟩) ⟨26⟩ [int, Known.javaLangRef Known.string]
    t.Standalone ∧ t.Honest ∧ t.Layered ∧ t.InheritsApplied 65 ⟨32⟩ ∧ t.DirectAbove ⟨32⟩ ∧
      ∃ classes t', (SymM.baseClasses ⟨32⟩).answer? t = some classes ∧ ⟨26⟩ ∈ classes ∧
        baseType 9 (.ref (.this ⟨24⟩) ⟨32⟩ [int]) ⟨26⟩ t = .ok pair t' ∧
        t.Composes t.Replaced ⟨32⟩ [int] ⟨26⟩ [int, Known.javaLangRef Known.string] := by
  intro t int pair
  have facts : t.Standalone ∧ t.linearized = [] ∧ (t.kind .none).isClass = false ∧ t.size ≤
      Limits.linearizationDepth ∧ (∀ i < t.size, ∀ p ∈ (t.get ⟨i⟩).parents, (t.parentClass p).val <
      i) ∧ (⟨32⟩ : SymbolId).val < t.size ∧ (∀ e ∈ [⟨32⟩, ⟨29⟩, ⟨26⟩, Known.object, Known.any],
      t.DeclaresApplied e ∧ ∀ p ∈ (t.get e).parents,
        t.parentClass p ∈ [⟨32⟩, ⟨29⟩, ⟨26⟩, Known.object, Known.any] ∧
          p.isDirect (t.tparams e) = true) ∧
      [int].length = (t.tparams ⟨32⟩).length ∧
      (baseType 9 (.ref (.this ⟨24⟩) ⟨32⟩ [int]) ⟨26⟩).answer? t = some pair := by decide +kernel
  clear_value t
  obtain ⟨ht, fresh, absent, size, down, known, above, arity, found⟩ := facts
  have layered : t.Layered := SymbolTable.layered_of_descending absent size down
  have closed : ∀ e, t.IsBase ⟨32⟩ e → e ∈ [⟨32⟩, ⟨29⟩, ⟨26⟩, Known.object, Known.any] := by
    intro e base
    induction base with
    | refl => exact List.mem_cons_self
    | tail _ step ih =>
      obtain ⟨p, hp, rfl⟩ :=
        List.mem_map.1 ((SymbolTable.directBase_iff (above _ ih).1.isClass).1 step).1
      exact ((above _ ih).2 p hp).1
  have inherits : t.InheritsApplied 65 ⟨32⟩ :=
    ⟨fun d base => (above d (closed d base)).1,
      (SymbolTable.chainsWithin_of_descending known down).mono (by decide)⟩
  have direct : t.DirectAbove ⟨32⟩ := fun e base p hp => ((above e (closed e base)).2 p hp).2
  obtain ⟨classes, list, right, -⟩ := baseType_agrees_with_baseClasses.2
    t ht (.of_forgotten fresh) layered ⟨32⟩ inherits
  refine ⟨ht, .of_forgotten fresh, layered, inherits, direct, ?_⟩
  unfold SymM.answer? at found
  cases run : baseType 9 (.ref (.this ⟨24⟩) ⟨32⟩ [int]) ⟨26⟩ t with
  | error e t' =>
    rw [run] at found
    cases found
  | ok ty t' =>
    rw [run] at found
    obtain rfl : ty = pair := Option.some.inj found
    obtain ⟨isBase, composed⟩ := right 9 _ [int] ⟨26⟩ _ t' arity run
    obtain ⟨_, _, eq, composes⟩ := composed nofun
    obtain ⟨-, -, rfl⟩ := Ty.ref.inj eq
    exact ⟨classes, t', list, isBase.1 nofun, rfl, composes⟩

end Conformance

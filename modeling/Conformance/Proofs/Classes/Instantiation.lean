import Conformance.Proofs.Classes.Plain

/-! # Instantiating class terms

A term over the parameters of a class takes types for them. Parameters are looked up by their first
position, so a parameter listed twice takes the first of its types. -/

namespace Conformance

variable {as bs : List Ty} {c d p pkg pkg' : SymbolId}
  {g l : Ty} {ps : List SymbolId} {args : List Ty}

namespace Ty

mutual
/-- `ty` with the types `args` for the parameters `ps`. -/
def inst (ps : List SymbolId) (args : List Ty) : Ty → Ty
  | .ref .noPrefix s [] => ((ps.zip args).lookup s).getD (.ref .noPrefix s [])
  | .ref pre s as => .ref pre s (instAll ps args as)
  | ty => ty

def instAll (ps : List SymbolId) (args : List Ty) : List Ty → List Ty
  | [] => []
  | ty :: tys => ty.inst ps args :: instAll ps args tys
end

@[simp] theorem instAll_eq_map (ps : List SymbolId) (args tys : List Ty) :
    instAll ps args tys = tys.map (inst ps args) := by
  induction tys with
  | nil => rfl
  | cons ty tys ih => rw [instAll, ih, List.map_cons]

@[simp] theorem inst_app (ps : List SymbolId) (args : List Ty) (pkg c : SymbolId) (as : List Ty) :
    (Ty.ref (.this pkg) c as).inst ps args = .ref (.this pkg) c (as.map (inst ps args)) := by
  rw [inst, instAll_eq_map]
  simp

theorem lookup_zip {a : Ty} (h : args[ps.idxOf p]? = some a)
    (mem : p ∈ ps) : (ps.zip args).lookup p = some a := by
  induction ps generalizing args with
  | nil => cases mem
  | cons q ps ih =>
    cases args with
    | nil => cases h
    | cons b args =>
      by_cases hq : q = p
      · subst hq
        simpa using h
      · have next : args[ps.idxOf p]? = some a := by simpa [List.idxOf_cons_ne ps hq] using h
        have mem : p ∈ ps := by simpa [Ne.symm hq] using mem
        have miss : (p == q) = false := by simpa using Ne.symm hq
        simp [List.lookup_cons, miss, ih next mem]

theorem inst_param {a : Ty} (h : args[ps.idxOf p]? = some a)
    (mem : p ∈ ps) : (Ty.ref .noPrefix p []).inst ps args = a := by
  rw [inst, lookup_zip h mem, Option.getD_some]

end Ty

namespace SymbolTable

variable {t : SymbolTable} {ps qs : List SymbolId} {args : List Ty}

theorem exists_arg (mem : p ∈ ps) (arity : args.length = ps.length) :
    ∃ a, args[ps.idxOf p]? = some a ∧ ps[ps.idxOf p]? = some p := by
  have lt := List.idxOf_lt_length_of_mem mem
  have lt' : ps.idxOf p < args.length := arity ▸ lt
  exact ⟨args[ps.idxOf p], List.getElem?_eq_getElem lt', by simp [List.getElem?_eq_getElem lt]⟩

/-- A class of a package is applied to all its arguments, whatever these are. -/
structure Applied (t : SymbolTable) (pkg c : SymbolId) (args : List Ty) : Prop where
  package : t.IsPackage pkg
  plain : t.IsPlainClass c
  arity : args.length = (t.tparams c).length

theorem ClassTerm.applied (h : t.ClassTerm ps (.ref (.this pkg) c args)) :
    t.Applied pkg c args := by
  cases h with
  | app package plain arity _ => exact ⟨package, plain, arity⟩

/-- A property that classes pass on from their arguments. -/
def Congruent (t : SymbolTable) (R : Ty → Prop) : Prop :=
  ∀ {pkg c : SymbolId} {as : List Ty}, t.Applied pkg c as →
    (∀ a ∈ as, R a) → R (.ref (.this pkg) c as)

theorem ClassTerm.congruent : t.Congruent (t.ClassTerm ps) := fun applied terms =>
  .app applied.package applied.plain applied.arity terms

theorem ClassTerm.inst_of {R : Ty → Prop} (congr : t.Congruent R) (h : t.ClassTerm ps g)
    (arity : args.length = ps.length) (terms : ∀ a ∈ args, R a) : R (g.inst ps args) := by
  induction h with
  | param mem =>
    obtain ⟨a, ha, -⟩ := exists_arg mem arity
    rw [Ty.inst_param ha mem]
    exact terms a (List.mem_of_getElem? ha)
  | app package plain len _ ih =>
    rw [Ty.inst_app]
    refine congr ⟨package, plain, by simpa using len⟩ fun b hb => ?_
    obtain ⟨a, ha, rfl⟩ := List.mem_map.1 hb
    exact ih a ha

theorem ClassTerm.inst (h : t.ClassTerm ps g) (arity : args.length = ps.length)
    (terms : ∀ a ∈ args, t.ClassTerm qs a) : t.ClassTerm qs (g.inst ps args) :=
  h.inst_of .congruent arity terms

end SymbolTable

/-- Parameters, and references of packages applied to such terms, whatever these refer to. -/
inductive Ty.IsTerm (ps : List SymbolId) : Ty → Prop where
  | param {p : SymbolId} (mem : p ∈ ps) : IsTerm ps (.ref .noPrefix p [])
  | app {pkg c : SymbolId} {args : List Ty} (terms : ∀ a ∈ args, IsTerm ps a) :
    IsTerm ps (.ref (.this pkg) c args)

theorem Ty.IsTerm.inst_inst {qs : List SymbolId} (h : g.IsTerm ps) (arity : args.length = ps.length)
    (bs : List Ty) : (g.inst ps args).inst qs bs = g.inst ps (args.map (Ty.inst qs bs)) := by
  induction h with
  | param mem =>
    obtain ⟨a, ha, -⟩ := SymbolTable.exists_arg mem arity
    rw [Ty.inst_param ha mem, Ty.inst_param (a := a.inst qs bs) (by simp [ha]) mem]
  | app _ ih =>
    simp only [Ty.inst_app, List.map_map]
    congr 1
    exact List.map_congr_left ih

theorem Ty.IsTerm.inst_eq {ty : Ty} (h : ty.IsTerm []) : ty.inst ps args = ty := by
  induction h with
  | param mem => cases mem
  | app _ ih =>
    rw [Ty.inst_app]
    congr 1
    exact (List.map_congr_left ih).trans (List.map_id _)

namespace SymbolTable

variable {t : SymbolTable} {ps qs : List SymbolId} {args : List Ty}

theorem ClassTerm.isTerm (h : t.ClassTerm ps g) : g.IsTerm ps := by
  induction h with
  | param mem => exact .param mem
  | app _ _ _ _ ih => exact .app ih

theorem ClassTerm.inst_inst (h : t.ClassTerm ps g) (arity : args.length = ps.length)
    (bs : List Ty) : (g.inst ps args).inst qs bs = g.inst ps (args.map (Ty.inst qs bs)) :=
  h.isTerm.inst_inst arity bs

theorem ClassType.inst_eq {ty : Ty} (h : t.ClassType ty) : ty.inst ps args = ty := h.isTerm.inst_eq

/-- The type has the supertype `d[bs]` through declared parents. -/
inductive Base (t : SymbolTable) : Ty → SymbolId → List Ty → Prop where
  | here {pkg c : SymbolId} {args : List Ty} : Base t (.ref (.this pkg) c args) c args
  | up {pkg c d : SymbolId} {args bs : List Ty} {g : Ty}
      (plain : t.IsPlainClass c) (parent : g ∈ t.supers c)
      (rest : Base t (g.inst (t.tparams c) args) d bs) : Base t (.ref (.this pkg) c args) d bs

theorem Base.parent {gs : List Ty} (plain : t.IsPlainClass c)
    (declared : Ty.ref (.this pkg') d gs ∈ t.supers c) :
    t.Base (.ref (.this pkg) c args) d (gs.map (Ty.inst (t.tparams c) args)) :=
  .up plain declared (by rw [Ty.inst_app]; exact .here)

theorem Plain.super_inst (ht : t.Plain) (h : t.ClassTerm qs (.ref (.this pkg) c args))
    (hg : g ∈ t.supers c) : ∃ pkg' d gs, g = .ref (.this pkg') d gs ∧
    t.ParentStep c d ∧ t.ClassTerm (t.tparams c) g ∧
      t.ClassTerm qs (g.inst (t.tparams c) args) := by
  obtain ⟨term, pkg', d, gs, rfl⟩ := ht.super_term h.isPlainClass hg
  exact ⟨pkg', d, gs, rfl, ⟨h.isPlainClass, _, _, hg⟩, term, term.inst h.arity fun a ha => h.arg ha⟩

theorem Base.derives (ht : t.Plain) (hl : t.ClassTerm qs (.ref (.this pkg) c args))
    (h : t.Base (.ref (.this pkg) c args) d bs) : t.Derives c d := by
  generalize eq : Ty.ref (.this pkg) c args = l at h
  induction h generalizing pkg c args with
  | here => cases eq; exact .refl
  | up _ parent _ ih =>
    cases eq
    obtain ⟨pkg', e, gs, rfl, step, -, term⟩ := ht.super_inst hl parent
    rw [Ty.inst_app] at ih term
    exact .head step (ih term rfl)

/-- A base type is a class term again, with any package as its prefix. -/
theorem Base.classTerm (ht : t.Plain)
    (hl : t.ClassTerm qs (.ref (.this pkg) c args)) (h : t.Base (.ref (.this pkg) c args) d bs)
    (hpkg : t.IsPackage pkg') : t.ClassTerm qs (.ref (.this pkg') d bs) := by
  generalize eq : Ty.ref (.this pkg) c args = l at h
  induction h generalizing pkg c args with
  | here =>
    cases eq
    cases hl with
    | app _ plain arity terms => exact .app hpkg plain arity terms
  | up _ parent _ ih =>
    cases eq
    obtain ⟨pkg', e, gs, rfl, -, -, term⟩ := ht.super_inst hl parent
    rw [Ty.inst_app] at ih term
    exact ih term rfl

theorem Base.trans {e : SymbolId} {cs : List Ty} (h : t.Base l d bs)
    (h' : t.Base (.ref (.this pkg) d bs) e cs) : t.Base l e cs := by
  induction h with
  | here =>
    cases h' with
    | here => exact .here
    | up plain parent rest => exact .up plain parent rest
  | up plain parent _ ih => exact .up plain parent (ih h')

/-- Nothing but itself has a bottom class as its base class. -/
theorem Base.bottom (ht : t.Plain) (h : t.Base l d bs)
    (hd : d = Known.nothing ∨ d = Known.null) : ∃ pkg, l = .ref (.this pkg) d bs := by
  induction h with
  | @here pkg => exact ⟨pkg, rfl⟩
  | up plain parent _ ih =>
    obtain ⟨-, pkg', e, gs, rfl⟩ := ht.super_term plain parent
    obtain ⟨_, eq⟩ := ih hd
    rw [Ty.inst_app] at eq
    cases eq
    have := ht.bottom _ _ ⟨plain, _, _, parent⟩
    obtain rfl | rfl := hd
    · exact absurd rfl this.1
    · exact absurd rfl this.2

/-- Only the class itself is reached at its own class. -/
theorem Base.self (ht : t.Plain) (hl : t.ClassTerm qs (.ref (.this pkg) c args))
    (h : t.Base (.ref (.this pkg) c args) c bs) : bs = args := by
  cases h with
  | here => rfl
  | up _ parent rest =>
    obtain ⟨_, _, _, rfl, step, -, term⟩ := ht.super_inst hl parent
    rw [Ty.inst_app] at rest term
    exact absurd (rest.derives ht term) (ht.not_derives step)

/-! ## The base type that is found first -/

/-- The class of a reference is `d` or derives from it. -/
def LeadsTo (t : SymbolTable) (d : SymbolId) : Ty → Prop
  | .ref _ e _ => t.Derives e d
  | _ => False

open Classical in
/-- The type has the supertype `d[bs]`, found by going up through the first parent that leads
there. -/
inductive Nearest (t : SymbolTable) (d : SymbolId) : Ty → List Ty → Prop where
  | here {pkg : SymbolId} {args : List Ty} : Nearest t d (.ref (.this pkg) d args) args
  | up {pkg c : SymbolId} {args bs : List Ty} {g : Ty} (other : c ≠ d) (plain : t.IsPlainClass c)
      (first : (t.supers c).find? (fun g => decide (t.LeadsTo d g)) = some g)
      (rest : Nearest t d (g.inst (t.tparams c) args) bs) : Nearest t d (.ref (.this pkg) c args) bs

theorem Nearest.base (h : t.Nearest d l bs) : t.Base l d bs := by
  induction h with
  | here => exact .here
  | up _ plain first _ ih => exact .up plain (List.mem_of_find?_eq_some first) ih

theorem Nearest.shape (h : t.Nearest d l bs) : ∃ pkg c as, l = .ref (.this pkg) c as := by
  cases h with
  | here => exact ⟨_, _, _, rfl⟩
  | up => exact ⟨_, _, _, rfl⟩

theorem Nearest.unique {bs' : List Ty} (h : t.Nearest d l bs)
    (h' : t.Nearest d l bs') : bs = bs' := by
  induction h with
  | here =>
    cases h' with
    | here => rfl
    | up other => exact absurd rfl other
  | up other _ first _ ih =>
    cases h' with
    | here => exact absurd rfl other
    | up _ _ first' rest' =>
      obtain rfl := Option.some.inj (first.symm.trans first')
      exact ih rest'

theorem Nearest.self (h : t.Nearest c (.ref (.this pkg) c as) bs) : bs = as :=
  h.unique .here

theorem Nearest.package (h : t.Nearest d (.ref (.this pkg) c as) bs) :
    t.Nearest d (.ref (.this pkg') c as) bs := by
  cases h with
  | here => exact .here
  | up other plain first rest => exact .up other plain first rest

theorem Plain.super_applied (ht : t.Plain) (hl : t.Applied pkg c args)
    (hg : g ∈ t.supers c) : ∃ pkg' d gs, g = .ref (.this pkg') d gs ∧ t.ParentStep c d ∧
      t.ClassTerm (t.tparams c) g ∧ t.Applied pkg' d (gs.map (Ty.inst (t.tparams c) args)) := by
  obtain ⟨term, pkg', d, gs, rfl⟩ := ht.super_term hl.plain hg
  exact ⟨pkg', d, gs, rfl, ⟨hl.plain, _, _, hg⟩, term, term.applied.package, term.isPlainClass,
    (List.length_map _).trans term.arity⟩

/-- What is found is an applied class again, and what classes pass on from their arguments holds of
its arguments. -/
theorem Nearest.applied (ht : t.Plain) {R : Ty → Prop} (congr : t.Congruent R)
    (hl : t.Applied pkg c as) (terms : ∀ a ∈ as, R a) (package : t.IsPackage pkg')
    (h : t.Nearest d (.ref (.this pkg) c as) bs) : t.Applied pkg' d bs ∧ ∀ b ∈ bs, R b := by
  generalize eq : Ty.ref (.this pkg) c as = l at h
  induction h generalizing pkg c as with
  | here =>
    cases eq
    exact ⟨⟨package, hl.plain, hl.arity⟩, terms⟩
  | up _ _ first _ ih =>
    cases eq
    obtain ⟨_, _, gs, rfl, -, term, applied⟩ := ht.super_applied
      hl (List.mem_of_find?_eq_some first)
    rw [Ty.inst_app] at ih
    refine ih applied (fun b hb => ?_) rfl
    obtain ⟨g, hg, rfl⟩ := List.mem_map.1 hb
    exact (term.arg hg).inst_of congr hl.arity terms

theorem Nearest.derives (ht : t.Plain) (hl : t.Applied pkg c as)
    (h : t.Nearest d (.ref (.this pkg) c as) bs) : t.Derives c d := by
  generalize eq : Ty.ref (.this pkg) c as = l at h
  induction h generalizing pkg c as with
  | here => cases eq; exact .refl
  | up _ _ first _ ih =>
    cases eq
    obtain ⟨_, e, gs, rfl, step, -, applied⟩ := ht.super_applied
      hl (List.mem_of_find?_eq_some first)
    rw [Ty.inst_app] at ih
    exact .head step (ih applied rfl)

/-- Something is found at every class that a class derives from. -/
theorem Plain.exists_nearest (ht : t.Plain) {k : Nat}
    (hl : t.Applied pkg c as) (within : t.Within k c)
    (derives : t.Derives c d) : ∃ bs, t.Nearest d (.ref (.this pkg) c as) bs := by
  classical
  induction k generalizing pkg c as with
  | zero => exact absurd within (t.not_within_zero c)
  | succ k ih =>
    by_cases same : c = d
    · subst same
      exact ⟨as, .here⟩
    obtain rfl | ⟨e, ⟨-, pre, args, mem⟩, up⟩ := derives_iff.1 derives
    · exact absurd rfl same
    obtain ⟨g, first⟩ : ∃ g, (t.supers c).find? (fun g => decide (t.LeadsTo d g)) = some g :=
      Option.isSome_iff_exists.1 (List.find?_isSome.2
        ⟨_, mem, decide_eq_true (show t.LeadsTo d (.ref pre e args) from up)⟩)
    have leads : t.LeadsTo d g := by simpa using List.find?_some first
    obtain ⟨pkg', e', gs, rfl, step, -, applied⟩ :=
      ht.super_applied hl (List.mem_of_find?_eq_some first)
    obtain ⟨bs, found⟩ := ih applied (within.step step) leads
    exact ⟨bs, .up same hl.plain first (by rw [Ty.inst_app]; exact found)⟩

end SymbolTable

end Conformance

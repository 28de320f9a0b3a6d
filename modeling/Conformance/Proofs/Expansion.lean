import Conformance.Proofs.Levels
import Conformance.Proofs.Rebuilding

/-! # Types in which variables are replaced

What comes out when variables are replaced by what stands for them names no instantiated variable,
if what stands for a variable never leads back to it; for then no expansion is cut short. And a type
that names none comes out as it was. -/

namespace Conformance

variable {α : Type} {body : Ty} {v : VarId} {t : SymbolTable}
  {inst? : VarId → Option Ty} {n : Nat} {ty : Ty}

/-- All but the instantiated variables. -/
def Vocabulary.without (inst? : VarId → Option Ty) : Vocabulary where
  var v := inst? v = none

namespace SymbolTable

/-- `ty` is nested less than `n` levels deep, names no instantiated variable, and binds symbols of
the table that are not among `avoid`. -/
abbrev Resolved (t : SymbolTable) (inst? : VarId → Option Ty)
    (avoid : List SymbolId) (n : Nat) (ty : Ty) : Prop :=
  t.Nested (.without inst?) avoid n ty

/-- No instantiated variable is a component. -/
theorem Resolved.open_of_reaches {avoid : List SymbolId} (h : t.Resolved inst? avoid n ty)
    (hv : t.Reaches ty (.var v)) : inst? v = none := h.has_of_reaches hv

end SymbolTable

open SymbolTable

/-! ## A type that names no instantiated variable stays -/

/-- The type over what `g` makes of its parts. -/
def Ty.onParts (g : Ty → Ty) : Ty → Ty
  | .single pre s => .single (g pre) s
  | .ref pre s args => .ref (g pre) s (args.map g)
  | .refined parents decls cls => .refined (parents.map g) decls cls
  | .exist qs body => if g body = body then .exist qs body else .existential qs (g body)
  | .annotated as body => if g body = body then .annotated as body else .annotate as (g body)
  | .boundedWildcard b => .boundedWildcard (g b)
  | .bounds lo hi => .bounds (g lo) (g hi)
  | .method ps r flags => .method ps (g r) flags
  | .nullary r => .nullary (g r)
  | .poly ps r => if g r = r then .poly ps r else .lambda ps (g r)
  | .notNull b => .notNull (g b)
  | ty => ty

theorem Ty.onParts_eq_self {g : Ty → Ty} (h : ∀ c ∈ ty.parts, g c = c) : ty.onParts g = ty := by
  have list : ∀ {cs : List Ty}, (∀ c ∈ cs, g c = c) → cs.map g = cs :=
    fun h => (List.map_congr_left h).trans (List.map_id _)
  cases ty <;> simp_all [parts, onParts]

section Fixed

variable {t : SymbolTable} {f : TypeMap} {g : Ty → Ty}

theorem mapM_fixed {f : α → SymM Ty} {g : α → Ty} {xs : List α}
    (h : ∀ x ∈ xs, f x t = .ok (g x) t) : xs.mapM f t = .ok (xs.map g) t := by
  induction xs with
  | nil => rfl
  | cons x xs ih =>
    rw [List.mapM_cons, CheckM.bind_ok (h x List.mem_cons_self),
      CheckM.bind_ok (ih fun y hy => h y (List.mem_cons_of_mem _ hy))]
    rfl

theorem Rebinding.mapBinder_fixed (rb : Rebinding)
    {binders : List SymbolId} (hbody : f body t = .ok (g body) t)
    (hinfos : ∀ b ∈ binders, f (t.info b) t = .ok (t.info b) t) :
    rb.mapBinder f binders body t = .ok (binders, g body) t := by
  have infos : (binders.map t.info).mapM f t = .ok (binders.map t.info) t :=
    (mapM_fixed (g := id) fun x hx => by
      obtain ⟨b, hb, rfl⟩ := List.mem_map.1 hx
      exact hinfos b hb).trans (by rw [List.map_id])
  show ((binders.map t.info).mapM f >>= _) t = _
  rw [CheckM.bind_ok infos, CheckM.bind_ok hbody, if_pos rfl]
  rfl

/-- Where no info changes, a map rebuilds the type from its parts. -/
theorem Rebinding.mapOver_run (rb : Rebinding) (hparts : ∀ c ∈ ty.parts, f c t = .ok (g c) t)
    (hinfos : ∀ b ∈ ty.binders, f (t.info b) t = .ok (t.info b) t) :
    rb.mapOver f ty t = .ok (ty.onParts g) t := by
  -- what did not change is left as it was
  have kept : ∀ {c : Prop} [Decidable c] {whole new : Ty}, (c → whole = new) →
      (pure (if c then whole else new) : SymM Ty) t = .ok new t := fun same =>
    congrArg (EStateM.Result.ok · t) (ite_eq_right_iff.2 same)
  cases ty with
  | exist bs body | poly bs body | method bs body =>
    have mapped : rb.mapBinder f bs body t = .ok (bs, g body) t :=
      rb.mapBinder_fixed (hparts body List.mem_cons_self) hinfos
    rw [mapOver, CheckM.bind_ok mapped]
    simp only [true_and]
    first | rfl | exact kept fun eq => by simp [eq]
  | refined parents decls cls =>
    have parents' : parents.mapM f t = .ok (parents.map g) t := mapM_fixed hparts
    have infos' : decls.mapM (fun d => SymM.info d >>= f) t = .ok (decls.map t.info) t :=
      mapM_fixed hinfos
    show rb.mapRefined f (.refined parents decls cls) parents decls cls t = _
    rw [mapRefined, CheckM.bind_ok parents', CheckM.bind_ok infos']
    show (if decls.map t.info != decls.map t.info then _ else pure (if _ then _ else _) : SymM Ty)
      t = _
    rw [bne_self_eq_false, if_neg Bool.false_ne_true]
    exact kept fun eq => by simp [eq]
  | _ =>
    rw [mapOver_eq _ _ rfl, CheckM.bind_ok (mapM_fixed hparts)]
    exact congrArg (EStateM.Result.ok · t)
      (by simp +contextual [Ty.parts, Ty.onParts, Ty.withParts])

theorem Rebinding.mapOver_fixed (rb : Rebinding) (hparts : ∀ c ∈ ty.parts, f c t = .ok c t)
    (hinfos : ∀ b ∈ ty.binders, f (t.info b) t = .ok (t.info b) t) :
    rb.mapOver f ty t = .ok ty t := by
  rw [rb.mapOver_run (g := id) hparts hinfos, Ty.onParts_eq_self (g := id) fun _ _ => rfl]

end Fixed

theorem instantiateWith_of_resolved {avoid : List SymbolId} {fuel : Nat}
    (hn : n ≤ fuel) (expanding : List VarId) (h : t.Resolved inst? avoid n ty) :
    instantiateWith inst? fuel expanding ty t = .ok ty t := by
  induction n generalizing fuel ty with
  | zero => exact h.elim
  | succ n ih =>
    obtain ⟨hvar, hparts, hbinders⟩ := h
    obtain ⟨fuel, rfl⟩ : ∃ k, fuel = k + 1 := ⟨fuel - 1, by omega⟩
    have mapped : (Rebinding.at fuel).mapOver (instantiateWith inst? fuel expanding)
      ty t = .ok ty t :=
      Rebinding.mapOver_fixed _ (fun c mem => ih (by omega) (hparts c mem)) fun b mem =>
        ih (by omega) (hbinders b mem).2.2
    cases ty with
    | var v =>
      rw [instantiateWith, show inst? v = none from hvar]
      split <;> rfl
    | _ => exact mapped

/-! ## Expansion -/

/-- What stands for a variable never leads back to it. -/
def SymbolTable.Unlooped (t : SymbolTable) (inst? : VarId → Option Ty) : Prop :=
  ∀ v ty, inst? v = some ty → ¬ t.Leads inst? ty (.var v)

theorem Scope.In.binders {sc : Scope} (h : sc.In n ty) : sc.In n ty.binders := by
  cases h with
  | refined _ hdecls _ => exact hdecls
  | exist hq _ => exact hq
  | method hp _ => exact hp
  | poly hp _ => exact hp
  | _ => exact .nil

/-- An info leads where its binder leads; an info that says nothing leads nowhere. -/
theorem leads_of_info {b : SymbolId} (hb : b ∈ ty.binders)
    (h : t.Leads inst? (t.info b) (.var v)) : t.Leads inst? ty (.var v) := by
  obtain child | absent := info_mem_children hb
  · exact .child child h
  · rw [absent] at h
    cases h with
    | child mem _ => cases mem

section Expansion

variable {t : SymbolTable} (known : Known.count ≤ t.size)
  (ht : Scope.entered.Closed t) {inst? : VarId → Option Ty}
  (hinst : ∀ v ty, inst? v = some ty → Scope.entered.In t.size ty) (hunlooped : t.Unlooped inst?)
include known ht hinst hunlooped

/-- No expansion is cut short, since none leads back to a variable that is being expanded. -/
theorem instantiateWith_expands (fuel : Nat) {expanding : List VarId}
    (hty : Scope.entered.In t.size ty) (hexp : ∀ v ∈ expanding, ¬ t.Leads inst? ty (.var v)) : Along
    Continues False t (instantiateWith inst? fuel expanding ty) (·.Resolved inst? [] fuel ·) := by
  induction fuel generalizing expanding ty with
  | zero => exact .fail id
  | succ fuel ih =>
    have mapped : (Vocabulary.without inst?).Has ty → Along
        Continues False t ((Rebinding.at fuel).mapOver (instantiateWith inst? fuel expanding) ty)
        (·.Resolved inst? [] (fuel + 1) ·) := by
      intro names
      refine Rebinding.mapOver_along (Rebinding.at_keeps _ fuel)
        False.elim ⟨fun _ _ => trivial, fun c (mem : c ∈ []) => nomatch mem⟩ names
        (fun b mem => ⟨Scope.lt_of_entered known (Scope.In.binders hty b mem), List.not_mem_nil⟩)
        (fun c mem => ?_) fun b mem => ?_
      · have child : c ∈ t.children ty := mem_children.2 (.inl mem)
        exact ih (ht.at.children hty c child) fun v hv leads => hexp v hv (.child child leads)
      · exact ih (ht.fits (Scope.In.binders hty b mem) (Nat.le_refl _)).info fun v hv leads =>
          hexp v hv (leads_of_info mem leads)
    cases ty with
    | var v =>
      have notCut : expanding.contains v = false := by
        refine Bool.eq_false_iff.2 fun mem => hexp v (List.contains_iff_mem.1 mem) (.refl _)
      show Along _ _ _ (if expanding.contains v then pure (.var v) else _ : SymM Ty) _
      rw [notCut, if_neg Bool.false_ne_true]
      cases hv : inst? v with
      | none => exact .pure fun _ _ => ⟨hv, nofun, nofun⟩
      | some ty =>
        have never : ∀ w ∈ v :: expanding, ¬ t.Leads inst? ty (.var w) := by
          intro w hw leads
          obtain rfl | hw := List.mem_cons.1 hw
          · exact hunlooped w ty hv leads
          · exact hexp w hw (.inst hv leads)
        exact (ih (hinst v ty hv) never).imp id fun _ _ _ => Nested.succ
    | this | single | ref => exact mapped trivial
    | _ => exact mapped trivial

end Expansion

end Conformance

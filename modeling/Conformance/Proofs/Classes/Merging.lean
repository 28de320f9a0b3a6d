import Conformance.Proofs.Classes.Decision
import Conformance.Proofs.Classes.Service

/-! # Bounds of class types

Least upper and greatest lower bounds are found by asking queries and by looking base types up.
Whatever the queries answer, a least upper bound of class types is a class type whose arguments may
be intersections of class types, and where conformance is an order with a top it is above the types
that it bounds: elements are dropped only for others that are found to be beyond them. The symbols
entered for intersections are the only trace that the search leaves. -/

namespace Conformance

variable {fuel : Nat} {cls d : SymbolId} {l : Ty}

open SymbolTable SymM CheckM

variable {t : SymbolTable} {ok : Prop} {pkg c : SymbolId} {args : List Ty}

/-! ## Views of class types -/

theorem typeSymbol_yields (hc : t.IsPlainClass c) :
    Yields t ok (typeSymbol fuel (.ref (.this pkg) c args)) (· = c) := by
  show Yields t _ (typeSymbolUpTo fuel (127 + 1) _) _
  unfold typeSymbolUpTo
  refine (record_yields c).bind fun r hr => ?_
  rw [hr, hc.not_alias]
  exact .pure rfl

theorem baseClassesOf_yields (ht : t.Plain) (hc : t.IsPlainClass c) : Yields t (0 < fuel)
    (baseClassesOf fuel (.ref (.this pkg) c args)) fun cs => ∀ d ∈ cs, t.IsPlainClass d := by
  cases fuel with
  | zero => exact .fail (by simp)
  | succ fuel =>
    unfold baseClassesOf
    refine (typeSymbol_yields hc).bind fun s hs => (record_yields s).bind fun r hr => ?_
    rw [hr, hs, hc.isClass, if_pos rfl]
    refine ((linearize_yields ht hc ht.levels (by simp)).of_ok fun _ =>
      trivial).imp fun cs hcs d hd => ?_
    exact ht.derives_plain hc ((hcs d).1 hd)

/-- Where to enter an intersection is found without a trace. -/
theorem traverse_yields {f : OwnerFinder} {ty : Ty} (h : t.ClassType ty ∨ ∃ s, ty = .this s) :
    Yields t (sizeOf ty ≤ fuel) (OwnerFinder.traverse fuel f ty) fun _ => True := by
  induction fuel generalizing f ty with
  | zero =>
    refine .fail ?_
    obtain closed | ⟨s, rfl⟩ := h
    · obtain ⟨pkg, c, as, rfl⟩ := closed.shape
      simp
    · simp
  | succ fuel ih =>
    unfold OwnerFinder.traverse
    obtain closed | ⟨s, rfl⟩ := h
    · obtain ⟨pkg, c, as, rfl⟩ := closed.shape
      refine SymM.Attains.bind (normalizeUpTo_applied
        closed.applied.arity closed.applied.plain.not_alias 127) fun ty hty => ?_
      subst hty
      split
      · exact .pure trivial
      · refine .bind .get fun t' _ => .foldlM (fun _ => True) (fun f _ ty hty => ?_) trivial
        obtain rfl | mem := List.mem_cons.1 hty
        · exact (ih (.inr ⟨pkg, rfl⟩)).of_ok fun enough => by simp at enough ⊢; omega
        · have smaller := List.sizeOf_lt_of_mem mem
          exact (ih (.inl (closed.arg mem))).of_ok fun enough => by simp at enough; omega
    · refine .bind (P := (· = .this s)) (.pure rfl) fun ty hty => ?_
      subst hty
      split
      · exact .pure trivial
      · exact .bind .get fun t' _ => .pure trivial

theorem commonOwner_yields {types : List Ty} (h : ∀ ty ∈ types, t.ClassType ty) :
    Yields t (∀ ty ∈ types, sizeOf ty ≤ fuel) (commonOwner fuel types) fun _ => True :=
  .bind (.foldlM (fun _ => True) (fun _ _ ty hty => (traverse_yields (.inl (h ty hty))).of_ok
    fun enough => enough ty hty) trivial) fun _ _ => .pure trivial

/-! ## The order of class types -/

namespace SymbolTable

/-- Conformance of class types is an order with a top: declared parents respect variances, each base
class is reached at one instantiation, and every class derives from `Any`. -/
structure Ordered (t : SymbolTable) : Prop where
  variance : t.RespectsVariance
  one : t.OneInstantiation
  top : ∀ c, t.IsPlainClass c → t.Derives c Known.any

theorem Ordered.accepts (ho : t.Ordered) (ht : t.Plain)
    {r : Ty} (h : t.Conforms l r) : t.Accepts l r :=
  (h.decides ht ho.variance).accepts ht ho.one (h.closed ht).1 (h.closed ht).2

theorem Ordered.anyType (ho : t.Ordered) (ht : t.Rooted)
    (hl : t.ClassType l) : t.Conforms l Known.anyType := by
  obtain ⟨_, c, _, rfl⟩ := hl.shape
  obtain ⟨as, nearest⟩ := ht.plain.exists_nearest hl.applied (ht.plain.within c)
    (ho.top c hl.isPlainClass)
  have arity := (nearest.base.classTerm ht.plain hl ht.scala).arity
  rw [ht.any_tparams] at arity
  obtain rfl := List.eq_nil_of_length_eq_zero arity
  exact nearest.base.conforms ht.plain hl ht.scala

theorem Rooted.anyType_conforms (ht : t.Rooted)
    (hr : t.ClassType (.ref (.this pkg) Known.any args)) :
    t.Conforms Known.anyType (.ref (.this pkg) Known.any args) := by
  have arity := hr.arity
  rw [ht.any_tparams] at arity
  obtain rfl := List.eq_nil_of_length_eq_zero arity
  exact Base.here.conforms ht.plain ht.anyType hr.applied.package

theorem conforms_of_resembles {a b : Ty} (h : a.Resembles b)
    (ha : t.ClassType a) (hb : t.ClassType b) : t.Conforms a b ∧ t.Conforms b a := by
  induction h with
  | refs _ _ ih =>
    obtain ⟨_, _, _, eq⟩ := ha.shape
    cases eq
    obtain ⟨_, _, _, eq⟩ := hb.shape
    cases eq
    have pair := fun (i : Nat) a b h h' => ih i a b h h' (ha.arg (List.mem_of_getElem? h))
      (hb.arg (List.mem_of_getElem? h'))
    exact ⟨.args ha hb (fun i p a b _ h h' _ => (pair i a b h h').1) fun i p a b _ h h' _ =>
      (pair i a b h h').2, .args hb ha (fun i p b a _ h' h _ => (pair i a b h h').2)
      fun i p b a _ h' h _ => (pair i a b h h').1⟩

/-- Where conformance is an order, what conforms to one of the types is below `u`, unless `u` stands
contravariantly; and what one of them conforms to is above `u`, unless `u` stands covariantly. -/
structure Bounds (t : SymbolTable) (v : Variance) (types : List Ty) (u : Ty) : Prop where
  joined : t.Joined u
  above : v ≠ .contravariant → t.Ordered → ∀ x ∈ types, ∀ l, t.Conforms l x → t.Accepts l u
  below : v ≠ .covariant → t.Ordered → ∀ x ∈ types, ∀ r, t.Conforms x r → t.Accepts u r

namespace Bounds

variable {v : Variance} {types types' : List Ty} {u : Ty}

theorem of_class (ht : t.Plain) (closed : t.ClassType u)
    (above : v ≠ .contravariant → t.Ordered → ∀ x ∈ types, t.Conforms x u)
    (below : v ≠ .covariant → t.Ordered → ∀ x ∈ types, t.Conforms u x) : t.Bounds v types u where
  joined := closed.joined
  above hv ho x hx _ h := ho.accepts ht (.trans h (above hv ho x hx))
  below hv ho x hx _ h := ho.accepts ht (.trans (below hv ho x hx) h)

theorem lower (h : t.Bounds .covariant types' u)
    (beyond : ∀ x ∈ types, ∃ m ∈ types', t.Conforms x m) : t.Bounds .covariant types u where
  joined := h.joined
  above hv ho x hx l hl := by
    obtain ⟨m, hm, conforms⟩ := beyond x hx
    exact h.above hv ho m hm l (.trans hl conforms)
  below hv := absurd rfl hv

/-- An intersection is below what one of its parts conforms to. -/
theorem meet (ht : t.Plain) (closed : ∀ m ∈ types', t.ClassType m)
    (beyond : t.Ordered → ∀ x ∈ types, ∃ m ∈ types', t.Conforms m x) :
    t.Bounds .contravariant types (.refined types' [] cls) where
  joined := .meet fun m hm => (closed m hm).joined
  above hv := absurd rfl hv
  below _ ho x hx r hr := by
    obtain ⟨m, hm, conforms⟩ := beyond ho x hx
    exact .of_parent hm (ho.accepts ht (.trans conforms hr))

end Bounds

end SymbolTable

/-! ## Extremal elements -/

section Bounds

variable {n : Nat} {cfg : Config} {q : Queries} {types : List Ty}

/-- The elements that are kept are among the given ones, and beyond each of these is one that is
kept. -/
theorem extremal_finds {f : Ty → Ty → CheckM Bool} {R : Ty → Ty → Prop} (refl : ∀ a ∈ types, R a a)
    (trans : ∀ {a b c}, R a b → R b c → R a c)
    (hf : ∀ a ∈ types, ∀ b ∈ types, Finds t n ok (f a b) fun r => r = true → R a b) :
    Finds t n ok (types.foldlM (fun out ty => do
      if ← out.anyM (f ty) then return out
      let kept ← out.filterM fun m => return !(← f m ty)
      return kept ++ [ty]) []) fun out => (∀ m ∈ out, m ∈ types) ∧
        ∀ a ∈ types, ∃ m ∈ out, R a m := by
  have loop : ∀ todo out : List Ty, (∀ a ∈ todo, a ∈ types) → (∀ m ∈ out, m ∈ types) →
      Finds t n ok (todo.foldlM (fun out ty => do
        if ← out.anyM (f ty) then return out
        let kept ← out.filterM fun m => return !(← f m ty)
        return kept ++ [ty]) out) fun res =>
          (∀ m ∈ res, m ∈ types) ∧ (∀ m ∈ out, ∃ m' ∈ res, R m m') ∧
            ∀ a ∈ todo, ∃ m ∈ res, R a m := by
    intro todo
    induction todo with
    | nil => exact fun out _ hout => .pure ⟨hout, fun m hm => ⟨m, hm, refl m (hout m hm)⟩, by simp⟩
    | cons ty todo ih =>
      intro out htodo hout
      rw [List.forall_mem_cons] at htodo
      rw [List.foldlM_cons]
      -- the elements stay below those that come of one step
      have step : Finds t n ok (do
          if ← out.anyM (f ty) then return out
          let kept ← out.filterM fun m => return !(← f m ty)
          return kept ++ [ty]) fun out' =>
            (∀ m ∈ out', m ∈ types) ∧ (∀ m ∈ out, ∃ m' ∈ out', R m m') ∧ ∃ m ∈ out', R ty m := by
        refine (Finds.anyM fun m hm => hf ty htodo.1 m (hout m hm)).bind fun b hb =>
          .ite (fun yes => ?_) fun _ => ?_
        · exact .pure ⟨hout, fun m hm => ⟨m, hm, refl m (hout m hm)⟩, hb yes⟩
        refine (Finds.filterM (D := (R · ty)) fun m hm =>
          (hf m (hout m hm) ty htodo.1).bind fun b hb => .pure ?_).bind fun kept ⟨among, dropped⟩ =>
          .pure ⟨?_, fun m hm => ?_, ty, by simp, refl ty htodo.1⟩
        · exact fun no => hb (by simpa using no)
        · simpa [or_imp, forall_and] using And.intro (fun m hm => hout m (among m hm)) htodo.1
        · obtain hm | below := dropped m hm
          · exact ⟨m, by simp [hm], refl m (hout m (among m hm))⟩
          · exact ⟨ty, by simp, below⟩
      refine step.bind fun out' ⟨hout', kept, found⟩ =>
        (ih out' htodo.2 hout').imp fun res ⟨among, stay, rest⟩ => ?_
      have later : ∀ {a}, (∃ m ∈ out', R a m) → ∃ m ∈ res, R a m := by
        rintro a ⟨m, hm, am⟩
        obtain ⟨m', hm', mm'⟩ := stay m hm
        exact ⟨m', hm', trans am mm'⟩
      exact ⟨among, fun m hm => later (kept m hm), List.forall_mem_cons.2 ⟨later found, rest⟩⟩
  exact (loop types [] (fun _ h => h) (by simp)).imp fun out h => ⟨h.1, h.2.2⟩

/-- An intersection is entered as a new class of its own kind. -/
theorem refined_finds {minimal : List Ty} (owner : SymbolId) : Finds t n ok (do
      let cls ← SymM.newRefinementClass owner
      SymM.refinedType cls minimal []) fun u => ∃ cls, u = .refined minimal [] cls := by
  intro s hs _
  have entered : t.size ≤ s.table.nextId.val := hs.appended.size_le
  refine ⟨⟨(hs.add ?_ ?_).setInfo entered _, .refl _, rfl, rfl, Nat.le_refl _, Nat.le_refl _⟩,
    ⟨_, rfl⟩, .inr trivial⟩
  · exact SymbolKind.noConfusion
  · exact SymbolKind.noConfusion

variable (ht : t.Rooted) (hq : q.Serve t n ok)

section Glb

include ht hq

theorem maximalElements_finds (h : ∀ ty ∈ types, t.ClassType ty) :
    Finds t n ok (maximalElements q types) fun out =>
    (∀ m ∈ out, m ∈ types) ∧ ∀ a ∈ types, ∃ m ∈ out, t.Conforms a m :=
  extremal_finds (f := fun a b => q.sub a b .unlimited)
    (fun a ha => .refl (h a ha)) .trans fun a ha b hb =>
    (hq.sub a b (h a ha).joined (h b hb).joined).imp fun _ accepted yes =>
      (accepted yes).conforms ht.plain (h a ha) (h b hb)

theorem minimalElements_finds (h : ∀ ty ∈ types, t.ClassType ty) :
    Finds t n ok (minimalElements q types) fun out =>
    (∀ m ∈ out, m ∈ types) ∧ ∀ a ∈ types, ∃ m ∈ out, t.Conforms m a :=
  extremal_finds (f := fun a b => q.sub b a .unlimited) (R := fun a b => t.Conforms b a)
    (fun a ha => .refl (h a ha)) (fun h h' => .trans h' h) fun a ha b hb =>
      (hq.sub b a (h b hb).joined (h a ha).joined).imp fun _ accepted yes =>
        (accepted yes).conforms ht.plain (h b hb) (h a ha)

end Glb

include ht

theorem typeSymbol_finds (hc : t.IsPlainClass c) :
    SymM.Finds t ok (typeSymbol fuel (.ref (.this pkg) c args)) (· = c) :=
  .of_yields ht fun _ ht' => typeSymbol_yields (((ht'.agrees ht).plain c).2 hc)

theorem typesExcept_finds {bound : SymbolId} (h : ∀ ty ∈ types, t.ClassType ty) :
    Finds t n ok (typesExcept cfg bound types) fun out => (∀ m ∈ out, m ∈ types) ∧
      ∀ ty ∈ types, ty ∈ out ∨ ∃ pkg args, ty = .ref (.this pkg) bound args := by
  refine (Finds.filterM (D := fun ty => ∃ pkg args, ty = .ref (.this pkg) bound args) fun ty hty =>
    ?_).bind fun kept hkept => .pure (by simpa only [List.mem_eraseDups] using hkept)
  obtain ⟨pkg, c, as, rfl⟩ := (h ty hty).shape
  refine (Finds.onTable (typeSymbol_finds ht (h _ hty).isPlainClass)).bind fun s hs =>
    .pure fun no => ?_
  obtain rfl : s = bound := by simpa using no
  exact ⟨pkg, as, hs ▸ rfl⟩

include hq

/-- With fuel for the types themselves a greatest lower bound is found. -/
theorem glb_finds (h : ∀ ty ∈ types, t.ClassType ty)
    (enough : ok → ∀ ty ∈ types, sizeOf ty ≤ cfg.fuel) :
    Finds t n ok (glb cfg q types) (t.Bounds .contravariant types) := by
  unfold glb
  refine (typesExcept_finds ht h).bind fun kept ⟨among, others⟩ => ?_
  have closed : ∀ ty ∈ kept, t.ClassType ty := fun ty hty => h ty (among ty hty)
  refine (minimalElements_finds ht hq closed).bind fun minimal ⟨among', least⟩ => ?_
  have closed' : ∀ ty ∈ minimal, t.ClassType ty := fun ty hty => closed ty (among' ty hty)
  -- an element that is left out for `Any` is above all others
  have beyond : t.Ordered → minimal ≠ [] → ∀ x ∈ types, ∃ m ∈ minimal, t.Conforms m x := by
    intro ho some x hx
    obtain hx' | ⟨pkg, args, rfl⟩ := others x hx
    · exact least x hx'
    · obtain ⟨m, hm⟩ := List.exists_mem_of_ne_nil _ some
      exact ⟨m, hm, .trans (ho.anyType ht (closed' m hm)) (ht.anyType_conforms (h _ hx))⟩
  match minimal with
  | [] =>
    refine .pure (.of_class ht.plain ht.anyType (absurd rfl) fun _ ho x hx => ?_)
    obtain hx' | ⟨pkg, args, rfl⟩ := others x hx
    · obtain ⟨m, hm, -⟩ := least x hx'
      cases hm
    · exact ht.anyType_conforms (h _ hx)
  | [ty] =>
    refine .pure (.of_class ht.plain (closed' ty (by simp)) (absurd rfl) fun _ ho x hx => ?_)
    simpa using beyond ho nofun x hx
  | ty :: ty' :: tys =>
    have owner : SymM.Finds t ok (commonOwner cfg.fuel (ty :: ty' :: tys)) fun _ =>
      True := .of_yields ht fun _ ht' =>
      (commonOwner_yields fun ty hty => (ht'.agrees ht).classTerm (closed' ty hty)).of_ok
        fun hok ty hty => enough hok ty (among ty (among' ty hty))
    refine (Finds.onTable owner).bind fun owner _ => (refined_finds owner).imp ?_
    rintro _ ⟨cls, rfl⟩
    exact .meet ht.plain closed' fun ho => beyond ho nofun

/-! ## Shared base types -/

omit hq in
theorem baseType_finds (hok : ok → Fueled t cfg.fuel)
    (hl : t.ClassType l) (hd : t.IsPlainClass d) : SymM.Finds t ok (baseType cfg.fuel l d) fun ty =>
    ty.isPresent = true → IsBaseType t l d ty := by
  obtain ⟨pkg, c, as, rfl⟩ := hl.shape
  refine .of_yields ht fun t' ht' => ?_
  have agrees := ht'.agrees ht
  have found := baseType_yields (ht'.plain ht) cfg.fuel
    (agrees.classTerm hl).applied ((agrees.plain d).2 hd)
  refine (found.of_ok fun h => agrees.fueled (hok h)).imp fun ty hty present => ?_
  obtain ⟨-, rfl⟩ | ⟨pkg', bs, rfl, package, nearest⟩ := hty
  · cases present
  · exact ⟨pkg', bs, rfl, (agrees.package _).1 package, agrees.symm.nearest nearest⟩

omit hq in
theorem baseTypesAt_finds (hok : ok → Fueled t cfg.fuel) (hcls : t.IsPlainClass cls)
    (h : ∀ ty ∈ types, t.ClassType ty) : Finds t n ok (baseTypesAt cfg cls types) fun r =>
    ∀ bases, r = some bases →
      (∀ ty ∈ types, ∃ base ∈ bases, IsBaseType t ty cls base) ∧
        ∀ base ∈ bases, ∃ ty ∈ types, IsBaseType t ty cls base := by
  induction types with
  | nil =>
    refine .pure fun bases eq => ?_
    cases eq
    simp
  | cons ty types ih =>
    rw [List.forall_mem_cons] at h
    unfold baseTypesAt
    refine (Finds.onTable (baseType_finds ht hok h.1 hcls)).bind fun base hbase => ?_
    by_cases present : base.isPresent = true
    · rw [present]
      refine (ih h.2).bind fun r hr => .pure fun bases eq => ?_
      obtain ⟨rest, hrest, rfl⟩ := Option.map_eq_some_iff.1 eq
      obtain ⟨forth, back⟩ := hr rest hrest
      simp only [List.forall_mem_cons, List.exists_mem_cons_iff]
      exact ⟨⟨.inl (hbase present), fun ty hty => .inr (forth ty hty)⟩,
        .inl (hbase present), fun b hb => .inr (back b hb)⟩
    · rw [if_pos (by simpa using present)]
      exact .pure nofun

section Merge

variable {merge : Variance → List Ty → CheckM Ty} {S : Ty → Prop}

/-- How arguments are merged that are class types, with what `S` says of their size. -/
def Merges (t : SymbolTable) (n : Nat) (ok : Prop)
    (S : Ty → Prop) (merge : Variance → List Ty → CheckM Ty) : Prop :=
  ∀ v args, v ≠ .invariant → (∀ a ∈ args, t.ClassType a) → (ok → ∀ a ∈ args, S a) →
    Finds t n ok (merge v args) (t.Bounds v args)

variable (hmerge : Merges t n ok S merge)
include hmerge

theorem mergeArg_finds {v : Variance} {column : List Ty} (h : ∀ a ∈ column, t.ClassType a)
    (hS : ok → ∀ a ∈ column, S a) : Finds t n ok (mergeArg q .plain merge v column) fun r =>
    ∀ a, r = some a → t.Bounds v column a := by
  have merged : v ≠ .invariant → Finds t n ok (return some (← merge v column) : CheckM (Option Ty))
    fun r =>
      ∀ a, r = some a → t.Bounds v column a := fun hv =>
    (hmerge v column hv h hS).bind fun a ha => .pure fun b eq => Option.some.inj eq ▸ ha
  cases v with
  | covariant | contravariant => exact merged nofun
  | invariant =>
    cases column with
    | nil => exact .pure nofun
    | cons head others =>
      rw [List.forall_mem_cons] at h
      rw [mergeArg_cons]
      refine (Finds.allM fun a ha => hq.same head a h.1 (.closed (h.2 a ha))).bind fun agree same =>
        ?_
      refine .ite (fun yes => .pure fun a eq => ?_) fun _ => .pure nofun
      cases eq
      have both : ∀ x ∈ head :: others, t.Conforms head x ∧ t.Conforms x head :=
        List.forall_mem_cons.2 ⟨⟨.refl h.1, .refl h.1⟩, fun x hx =>
        conforms_of_resembles (same yes x hx) h.1 (h.2 x hx)⟩
      exact .of_class ht.plain h.1 (fun _ _ x hx => (both x hx).2) fun _ _ x hx => (both x hx).1

/-- Each argument bounds the column that it comes from. -/
theorem mergeArgs_finds {ps : List SymbolId} {rows : List (List Ty)}
    (entered : ∀ p ∈ ps, p.val < t.size) (h : ∀ row ∈ rows, ∀ a ∈ row, t.ClassType a)
    (hS : ok → ∀ row ∈ rows, ∀ a ∈ row, S a) : Finds t n
    ok (mergeArgs q .plain merge ps rows) fun r => ∀ args, r = some args → args.length = ps.length ∧
      ∀ (i : Nat) p a, ps[i]? = some p → args[i]? = some a →
        t.Bounds (t.get p).variance (rows.filterMap (·[i]?)) a := by
  induction ps generalizing rows with
  | nil =>
    refine .pure fun args eq => ?_
    cases eq
    simp
  | cons p ps ih =>
    rw [List.forall_mem_cons] at entered
    unfold mergeArgs
    refine Finds.readTable.bind fun t' ht' => ?_
    rw [ht'.get_eq entered.1]
    have heads : ∀ {T : Ty → Prop}, (∀ row ∈ rows, ∀ a ∈ row, T a) →
      ∀ a ∈ rows.filterMap List.head?, T a := by
      intro T h a ha
      obtain ⟨row, hrow, head⟩ := List.mem_filterMap.1 ha
      exact h row hrow a (List.mem_of_head? head)
    have tails : ∀ {T : Ty → Prop}, (∀ row ∈ rows, ∀ a ∈ row, T a) →
      ∀ row ∈ rows.map List.tail, ∀ a ∈ row, T a := by
      intro T h row hrow a ha
      obtain ⟨row, mem, rfl⟩ := List.mem_map.1 hrow
      exact h row mem a (List.mem_of_mem_tail ha)
    refine (mergeArg_finds ht hq hmerge (heads h) fun hok => heads (hS hok)).bind fun arg harg => ?_
    cases arg with
    | none => exact .pure nofun
    | some arg =>
      refine (ih entered.2 (tails h) fun hok => tails (hS hok)).bind fun r hr =>
        .pure fun args eq => ?_
      obtain ⟨rest, hrest, rfl⟩ := Option.map_eq_some_iff.1 eq
      obtain ⟨len, bounds⟩ := hr rest hrest
      refine ⟨congrArg Nat.succ len, fun i p' a hp ha => ?_⟩
      cases i with
      | zero =>
        cases hp
        cases ha
        simpa only [List.head?_eq_getElem?] using harg arg rfl
      | succ i =>
        have column := bounds i p' a hp ha
        simpa only [List.filterMap_map, Function.comp_def, List.getElem?_tail] using column

omit ht hq hmerge in
theorem mapM_argsOf {k : Nat} {bases : List Ty} (h : ∀ b ∈ bases, ∃ row, argsOf k b = some row) :
    bases.mapM (argsOf k) = some (bases.map fun b => (argsOf k b).getD []) := by
  induction bases with
  | nil => rfl
  | cons b bases ih =>
    rw [List.forall_mem_cons] at h
    obtain ⟨row, hrow⟩ := h.1
    simp [List.mapM_cons, ih h.2, hrow]

omit hq hmerge in
/-- What conforms to a base type is below the base type with arguments that bound its own. -/
theorem SymbolTable.Ordered.widen (ho : t.Ordered) {pkg' : SymbolId} {as bs : List Ty}
    (h : t.Conforms l (.ref (.this pkg) d as)) (arity : bs.length = (t.tparams d).length)
    (bounds : ∀ (i : Nat) p a b, (t.tparams d)[i]? = some p → as[i]? = some a → bs[i]? = some b →
      ∃ column, a ∈ column ∧ t.Bounds (t.get p).variance column b) : t.Accepts
        l (.ref (.this pkg') d bs) := by
  obtain ⟨hl, hr⟩ := h.closed ht.plain
  obtain ⟨pkg0, c, cs, rfl⟩ := hl.shape
  obtain bottom | ⟨as', nearest, args⟩ := (ho.accepts ht.plain h).cases rfl
  · exact bottom.accepts hr.isPlainClass
  have terms :=
    (nearest.applied ht.plain ClassTerm.congruent hl.applied (fun _ => hl.arg) hr.applied.package).2
  have at_ : ∀ {i : Nat} {a' : Ty}, as'[i]? = some a' →
    ∃ a, as[i]? = some a ∧ t.ClassType a' ∧ t.ClassType a := by
    intro i a' ha'
    have lt : i < as.length := args.len ▸ (List.getElem?_eq_some_iff.1 ha').1
    exact ⟨as[i], List.getElem?_eq_getElem lt, terms a' (List.mem_of_getElem? ha'),
      hr.arg (List.getElem_mem lt)⟩
  refine .base hr.isPlainClass nearest (args.len.trans (hr.arity.trans arity.symm))
    (fun i p a' b hp ha' hb hvar => ?_) fun i p a' b hp ha' hb hvar => ?_
  · obtain ⟨a, ha, closed', closed⟩ := at_ ha'
    obtain ⟨column, mem, bounds⟩ := bounds i p a b hp ha hb
    exact bounds.above hvar ho a mem a' ((args.co i p a' a hp ha' ha hvar).conforms
      ht.plain closed' closed)
  · obtain ⟨a, ha, closed', closed⟩ := at_ ha'
    obtain ⟨column, mem, bounds⟩ := bounds i p a b hp ha hb
    exact bounds.below hvar ho a mem a' ((args.contra i p a' a hp ha' ha hvar).conforms
      ht.plain closed closed')

omit hq hmerge in
/-- Arguments that bound those of the base types of some types at a class give a bound of the
types. -/
theorem SymbolTable.Bounds.of_baseTypes (h : ∀ ty ∈ types, t.ClassType ty)
    (found : ∀ ty ∈ types, ∃ as, t.Nearest d ty as)
    (joined : t.Joined (.ref (.this pkg) d args)) (bounds : ∀ ty ∈ types, ∀ as, t.Nearest d ty as →
    ∀ (i : Nat) p a b, (t.tparams d)[i]? = some p → as[i]? = some a →
      args[i]? = some b → ∃ column, a ∈ column ∧ t.Bounds (t.get p).variance column b) :
    t.Bounds .covariant types (.ref (.this pkg) d args) := by
  refine ⟨joined, fun _ ho x hx l hl => ?_, absurd rfl⟩
  obtain ⟨as, nearest⟩ := found x hx
  have hx' := h x hx
  obtain ⟨_, _, _, rfl⟩ := hx'.shape
  exact ho.widen ht (.trans hl (nearest.base.conforms ht.plain hx' joined.applied.package))
    joined.applied.arity (bounds _ hx _ nearest)

theorem sharedBaseTypeAt_finds (hok : ok → Fueled t cfg.fuel)
    (hcls : t.IsPlainClass cls) (h : ∀ ty ∈ types, t.ClassType ty)
    (hS : ok → ∀ ty ∈ types, ∀ as, t.Nearest cls ty as → ∀ a ∈ as, S a) :
    Finds t n ok (sharedBaseTypeAt cfg q .plain merge types cls) fun r =>
    ∀ u, r = some u → t.Bounds .covariant types u := by
  have closed : ∀ {ty base}, ty ∈ types → IsBaseType t ty cls base → t.ClassType base := by
    rintro ty _ hty ⟨pkg, as, rfl, package, nearest⟩
    have hl := h ty hty
    obtain ⟨_, _, _, rfl⟩ := hl.shape
    exact nearest.base.classTerm ht.plain hl package
  unfold sharedBaseTypeAt
  refine (baseTypesAt_finds ht hok hcls h).bind fun bases hbases => ?_
  match bases with
  | none | some [] => exact .pure nofun
  | some (base :: bases) =>
    obtain ⟨forth, back⟩ := hbases _ rfl
    obtain ⟨ty0, hty0, isBase0⟩ := back base (by simp)
    have closed0 := closed hty0 isBase0
    obtain ⟨pkg, as0, rfl, package, -⟩ := isBase0
    have found : ∀ ty ∈ types, ∃ as, t.Nearest cls ty as := fun ty hty =>
      (forth ty hty).elim fun _ ⟨_, _, as, _, _, nearest⟩ => ⟨as, nearest⟩
    simp only [TakeFirst.plain, List.head?_cons, pure_bind]
    refine Finds.readTable.bind fun t' ht' => ?_
    rw [(ht'.agrees ht).tparams_eq hcls]
    refine .ite (fun bare => .pure fun u eq => ?_) fun _ => ?_
    · cases eq
      refine .of_baseTypes ht h found closed0.joined fun _ _ _ _ i p _ _ hp => ?_
      rw [List.isEmpty_iff.1 bare] at hp
      cases hp
    have row : ∀ b ∈ Ty.ref (.this pkg) cls as0 :: bases, ∃ ty ∈ types, ∃ as, t.Nearest cls ty as ∧
        argsOf (t.tparams cls).length b = some as := by
      intro b hb
      obtain ⟨ty, hty, isBase⟩ := back b hb
      have arity := closed hty isBase
      obtain ⟨_, as, rfl, -, nearest⟩ := isBase
      exact ⟨ty, hty, as, nearest, if_pos arity.arity⟩
    rw [mapM_argsOf fun b hb => (row b hb).elim fun _ h => h.2.imp fun _ h => h.2]
    have cells : ∀ {T : Ty → Prop}, (∀ ty ∈ types, ∀ as, t.Nearest cls ty as → ∀ a ∈ as, T a) →
        ∀ as ∈ (Ty.ref (.this pkg) cls as0 :: bases).map
          (fun b => (argsOf (t.tparams cls).length b).getD []), ∀ a ∈ as, T a := by
      intro T hT as has
      obtain ⟨b, hb, rfl⟩ := List.mem_map.1 has
      obtain ⟨ty, hty, as, nearest, eq⟩ := row b hb
      rw [eq]
      exact hT ty hty as nearest
    have terms : ∀ ty ∈ types, ∀ as, t.Nearest cls ty as → ∀ a ∈ as, t.ClassType a :=
      fun ty hty as nearest a ha =>
      (closed hty ⟨pkg, as, rfl, package, nearest⟩).arg ha
    refine (mergeArgs_finds ht hq hmerge (ht.tparams cls hcls) (cells terms) fun h =>
      cells (hS h)).bind fun args hargs => .pure fun u eq => ?_
    obtain ⟨args, rfl, rfl⟩ := Option.map_eq_some_iff.1 eq
    obtain ⟨len, bounds⟩ := hargs args rfl
    refine .of_baseTypes ht h found (.app ⟨package, hcls, len⟩ fun a ha => ?_)
      fun ty hty as nearest i p a b hp ha hb =>
      ⟨_, List.mem_filterMap.2 ⟨as, ?_, ha⟩, bounds i p b hp hb⟩
    · obtain ⟨i, lt, rfl⟩ := List.mem_iff_getElem.1 ha
      exact (bounds i _ _ (List.getElem?_eq_getElem (len ▸ lt))
        (List.getElem?_eq_getElem lt)).joined
    · obtain ⟨b, hb, isBase⟩ := forth ty hty
      have arity := closed hty isBase
      obtain ⟨_, as', rfl, -, nearest'⟩ := isBase
      obtain rfl := nearest.unique nearest'
      exact List.mem_map.2 ⟨_, hb, by simp [argsOf, arity.arity]⟩

theorem sharedBaseType_finds (hok : ok → Fueled t cfg.fuel) (h : ∀ ty ∈ types, t.ClassType ty)
    (hS : ok → ∀ ty ∈ types, ∀ d as, t.Nearest d ty as → ∀ a ∈ as, S a) : Finds t n ok
    (sharedBaseType cfg q merge types) fun r => ∀ u, r = some u → t.Bounds .covariant types u := by
  unfold sharedBaseType sharedBaseTypeBy
  cases types with
  | nil => exact .pure nofun
  | cons first types =>
    have closed := h first (by simp)
    obtain ⟨pkg, c, as, rfl⟩ := closed.shape
    refine Finds.bind (P := (· = Ty.ref (.this pkg) c as))
      (.onTable fun t' ht' => ⟨ht', rfl⟩) fun wide hwide => ?_
    subst hwide
    have classes : SymM.Finds t ok (baseClassesOf cfg.fuel (.ref (.this pkg) c as)) fun cs =>
      ∀ d ∈ cs, t.IsPlainClass d := by
      refine .of_yields ht fun t' ht' => ?_
      have hc := ((ht'.agrees ht).plain c).2 closed.isPlainClass
      exact ((baseClassesOf_yields (ht'.plain ht) hc).of_ok fun h => (hok h).pos).imp
        fun cs hcs d hd => ((ht'.agrees ht).plain d).1 (hcs d hd)
    refine (Finds.onTable classes).bind fun cs hcs =>
      Finds.readTable.bind fun t' _ => .findSomeM? fun d hd => ?_
    exact sharedBaseTypeAt_finds ht hq hmerge
      hok (hcs d (List.mem_filter.1 (List.mem_of_mem_take hd)).1) h fun h ty hty => hS h ty hty d

theorem lubWith_finds (hok : ok → Fueled t cfg.fuel) (h : ∀ ty ∈ types, t.ClassType ty)
    (hS : ok → ∀ ty ∈ types, ∀ d as, t.Nearest d ty as → ∀ a ∈ as, S a) :
    Finds t n ok (lubWith cfg q merge types) (t.Bounds .covariant types) := by
  unfold lubWith
  refine (typesExcept_finds ht h).bind fun kept ⟨among, others⟩ => ?_
  have closed : ∀ ty ∈ kept, t.ClassType ty := fun ty hty => h ty (among ty hty)
  refine (maximalElements_finds ht hq closed).bind fun maximal ⟨among', greatest⟩ => ?_
  have closed' : ∀ ty ∈ maximal, t.ClassType ty := fun ty hty => closed ty (among' ty hty)
  -- an element that is left out for `Nothing` is below all others
  have beyond : maximal ≠ [] → ∀ x ∈ types, ∃ m ∈ maximal, t.Conforms x m := by
    intro some x hx
    obtain hx' | ⟨pkg, args, rfl⟩ := others x hx
    · exact greatest x hx'
    · obtain ⟨m, hm⟩ := List.exists_mem_of_ne_nil _ some
      exact ⟨m, hm, .nothing (h _ hx) (closed' m hm)⟩
  match maximal with
  | [] =>
    refine .pure (.of_class ht.plain ht.nothingType (fun _ _ x hx => ?_) (absurd rfl))
    obtain hx' | ⟨pkg, args, rfl⟩ := others x hx
    · obtain ⟨m, hm, -⟩ := greatest x hx'
      cases hm
    · exact .nothing (h _ hx) ht.nothingType
  | [ty] =>
    refine .pure (.of_class ht.plain (closed' ty (by simp)) (fun _ _ x hx => ?_) (absurd rfl))
    simpa using beyond nofun x hx
  | ty :: ty' :: tys =>
    refine (sharedBaseType_finds ht hq hmerge hok closed' fun h x hx =>
      hS h x (among x (among' x hx))).bind fun shared hshared => .pure (.lower ?_ (beyond nofun))
    cases shared with
    | none =>
      exact .of_class ht.plain ht.anyType (fun _ ho x hx => ho.anyType ht (closed' x hx))
        (absurd rfl)
    | some u => exact hshared u rfl

end Merge

/-- Types whose base types have arguments for which bounds are found with the given fuel, `k` levels
deep. -/
def SymbolTable.Fits (t : SymbolTable) (fuel : Nat) : Nat → Ty → Prop
  | 0, _ => True
  | k + 1, ty => ∀ d as, t.Nearest d ty as → ∀ a ∈ as, sizeOf a ≤ fuel ∧ Fits t fuel k a

theorem lubUpTo_finds (hok : ok → Fueled t cfg.fuel)
    (k : Nat) (h : ∀ ty ∈ types, t.ClassType ty) (fits : ok → ∀ ty ∈ types, t.Fits cfg.fuel k ty) :
    Finds t n ok (lubUpTo cfg q k types) (t.Bounds .covariant types) := by
  induction k generalizing types with
  | zero =>
    refine lubWith_finds ht hq (S := fun _ => True)
      (fun v args invariant hargs _ => .pure ?_) hok h fun _ _ _ _ _ _ _ _ => trivial
    cases v with
    | covariant =>
      exact .of_class ht.plain ht.anyType (fun _ ho x hx => ho.anyType ht (hargs x hx)) (absurd rfl)
    | contravariant =>
      exact .of_class ht.plain ht.nothingType (absurd rfl) fun _ _ x hx =>
        .nothing ht.nothingType (hargs x hx)
    | invariant => exact absurd rfl invariant
  | succ k ih =>
    refine lubWith_finds ht hq (S := fun a => sizeOf a ≤ cfg.fuel ∧ t.Fits cfg.fuel k a)
      (fun v args invariant hargs fits => ?_) hok h fits
    cases v with
    | covariant => exact ih hargs fun h a ha => (fits h a ha).2
    | contravariant => exact glb_finds ht hq hargs fun h a ha => (fits h a ha).1
    | invariant => exact absurd rfl invariant

end Bounds

end Conformance

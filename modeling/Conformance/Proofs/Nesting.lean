import Conformance.Proofs.Owners
import Conformance.Proofs.Reach
import Conformance.Proofs.Run

/-! # The common owner is the innermost symbol around all

Owners form a forest, so what is around some symbols is around the innermost symbol around them. A
finder keeps that one; the types it has been at are closed under components in the end, so nothing
is left to register. -/

namespace Conformance

namespace SymbolTable

variable (t : SymbolTable)

/-- From every symbol, owners lead to the absent one. -/
def OwnersEnd : Prop := ∀ s, ∃ n, t.owner^[n] s = .none

/-- `r` is around every symbol with `R`, and whatever else is around them is around `r`. -/
structure IsInnermost (R : SymbolId → Prop) (r : SymbolId) : Prop where
  around (s : SymbolId) : R s → t.isNestedIn s r = true
  inner (r' : SymbolId) : (∀ s, R s → t.isNestedIn s r' = true) → t.isNestedIn r r' = true

/-- The innermost symbol around those with `R`; the absent one if there are none. -/
def IsCommonOwner (R : SymbolId → Prop) (r : SymbolId) : Prop :=
  (∀ s, ¬ R s) ∧ r = .none ∨ (∃ s, R s) ∧ t.IsInnermost R r

variable {t} {R : SymbolId → Prop} {r s o : SymbolId}

theorem isNestedIn_refl (s : SymbolId) : t.isNestedIn s s = true := by
  rw [isNestedIn_iff]
  cases hs : s.isPresent with
  | false => exact .inl (isPresent_eq_false.1 hs)
  | true => exact .inr ⟨0, rfl, fun j hj => by rw [Nat.le_zero.1 hj]; exact hs⟩

theorem isNestedIn_none (s : SymbolId) : t.isNestedIn s .none = true := isNestedIn_iff.2 (.inl rfl)

theorem eq_none_of_isNestedIn (h : t.isNestedIn .none o = true) : o = .none := by
  obtain h | ⟨i, -, before⟩ := isNestedIn_iff.1 h
  · exact h
  · cases before 0 (Nat.zero_le i)

theorem isNestedIn_trans {a b c : SymbolId} (hab : t.isNestedIn a b = true)
    (hbc : t.isNestedIn b c = true) : t.isNestedIn a c = true := by
  obtain rfl | ⟨i, rfl, before⟩ := isNestedIn_iff.1 hab
  · rw [eq_none_of_isNestedIn hbc]
    exact isNestedIn_none a
  obtain rfl | ⟨j, met, before'⟩ := isNestedIn_iff.1 hbc
  · exact isNestedIn_none a
  rw [← Function.iterate_add_apply] at met
  refine isNestedIn_iff.2 (.inr ⟨j + i, met, fun k hk => ?_⟩)
  by_cases hki : k ≤ i
  · exact before k hki
  · have := before' (k - i) (by omega)
    rwa [← Function.iterate_add_apply, Nat.sub_add_cancel (by omega)] at this

theorem isNestedIn_antisymm (ends : t.OwnersEnd) {a b : SymbolId} (hab : t.isNestedIn a b = true)
    (hba : t.isNestedIn b a = true) : a = b := by
  obtain rfl | ⟨i, rfl, before⟩ := isNestedIn_iff.1 hab
  · exact eq_none_of_isNestedIn hba
  obtain rfl | ⟨j, back, before'⟩ := isNestedIn_iff.1 hba
  · exact (eq_none_of_isNestedIn hab).symm
  rw [← Function.iterate_add_apply] at back
  rcases Nat.eq_zero_or_pos i with rfl | pos
  · rfl
  -- a way round never comes to the end
  have round : ∀ n, (t.owner^[n] a).isPresent = true := by
    intro n
    induction n using Nat.strong_induction_on with
    | _ n ih =>
      by_cases hn : n ≤ i
      · exact before n hn
      by_cases hn' : n ≤ j + i
      · have := before' (n - i) (by omega)
        rwa [← Function.iterate_add_apply, Nat.sub_add_cancel (by omega)] at this
      · have := ih (n - (j + i)) (by omega)
        rwa [← back, ← Function.iterate_add_apply, Nat.sub_add_cancel (by omega)] at this
  obtain ⟨n, last⟩ := ends a
  have := round n
  rw [last] at this
  cases this

theorem IsCommonOwner.unique (ends : t.OwnersEnd) {r' : SymbolId}
    (h : t.IsCommonOwner R r) (h' : t.IsCommonOwner R r') : r = r' := by
  obtain ⟨none, rfl⟩ | ⟨⟨s, hs⟩, h⟩ := h
  · obtain ⟨-, rfl⟩ | ⟨⟨s, hs⟩, -⟩ := h'
    · rfl
    · exact absurd hs (none s)
  · obtain ⟨none, -⟩ | ⟨-, h'⟩ := h'
    · exact absurd hs (none s)
    · exact isNestedIn_antisymm ends (h.inner r' h'.around) (h'.inner r h.around)

/-- The part of a chain from one of its symbols on is the chain of that symbol. -/
theorem ownersUpTo_split {n : Nat} {os os' : List SymbolId}
    (h : t.ownersUpTo n s = os ++ o :: os') : ∃ m, t.ownersUpTo m o = o :: os' := by
  induction n generalizing s os with
  | zero => simp [ownersUpTo] at h
  | succ n ih =>
    have whole := h
    rw [ownersUpTo] at h
    split at h
    · cases os with
      | nil =>
        obtain ⟨rfl, -⟩ := List.cons.inj h
        exact ⟨n + 1, whole⟩
      | cons => exact ih (List.cons.inj h).2
    · simp at h

end SymbolTable

open SymbolTable

namespace OwnerFinder

variable {t : SymbolTable} {f f' : OwnerFinder} {R : SymbolId → Prop} {s : SymbolId}

/-- What the finder found is the common owner of the symbols with `R`. -/
def Covers (t : SymbolTable) (f : OwnerFinder) (R : SymbolId → Prop) : Prop :=
  f.found = none ∧ (∀ s, ¬ R s) ∨ ∃ r, f.found = some r ∧ (∃ s, R s) ∧ t.IsInnermost R r

theorem Covers.isCommonOwner (h : f.Covers t R) : t.IsCommonOwner R f.result := by
  obtain ⟨none, empty⟩ | ⟨r, found, some, innermost⟩ := h
  · exact .inl ⟨empty, by rw [result, none]; rfl⟩
  · exact .inr ⟨some, by rw [result, found]; exact innermost⟩

theorem Covers.register (h : f.Covers t R) (s : SymbolId) : (f.register t s).Covers t fun s' =>
    R s' ∨ s' = s := by
  refine .inr ?_
  obtain ⟨none, empty⟩ | ⟨r, found, some, innermost⟩ := h
  · refine ⟨s, by rw [OwnerFinder.register, none], ⟨s, .inr rfl⟩, fun s' hs' =>
      ?_, fun r' h => h s (.inr rfl)⟩
    rw [hs'.resolve_left (empty s')]
    exact isNestedIn_refl s
  rw [OwnerFinder.register, found]
  dsimp only
  split
  · -- what is around all of them is on the chain, and not before the first symbol around `s`
    have chained : ∀ r', (∀ s', R s' ∨ s' = s → t.isNestedIn s' r' = true) →
      r' = .none ∨ r' ∈ t.ownerChain r := by
      intro r' h
      have around := innermost.inner r' fun s' hs' => h s' (.inl hs')
      rwa [isNestedIn, Bool.or_eq_true, Bool.not_eq_true',
        isPresent_eq_false, List.contains_iff_mem] at around
    cases first : (t.ownerChain r).find? (t.isNestedIn s) with
    | none =>
      refine ⟨.none, rfl, ⟨s, .inr rfl⟩, fun s' _ => isNestedIn_none s', fun r' h => ?_⟩
      obtain rfl | mem := chained r' h
      · exact isNestedIn_none _
      · exact absurd (h s (.inr rfl)) (List.find?_eq_none.1 first r' mem)
    | some o =>
      obtain ⟨around, os, os', split, before⟩ := List.find?_eq_some_iff_append.1 first
      obtain ⟨m, rest⟩ := ownersUpTo_split split
      refine ⟨o, rfl, ⟨s, .inr rfl⟩, ?_, fun r' h => ?_⟩
      · rintro s' (hs' | rfl)
        · refine isNestedIn_trans (innermost.around s' hs') ?_
          rw [isNestedIn, List.contains_iff_mem.2
            (split ▸ List.mem_append_right _ List.mem_cons_self), Bool.or_true]
        · exact around
      · obtain rfl | mem := chained r' h
        · exact isNestedIn_none o
        rw [split] at mem
        obtain mem | mem := List.mem_append.1 mem
        · have := before r' mem
          rw [h s (.inr rfl)] at this
          cases this
        · obtain ⟨i, -, met, present⟩ := mem_ownersUpTo.1 (rest ▸ mem)
          exact isNestedIn_iff.2 (.inr ⟨i, met, present⟩)
  · next absent =>
    obtain rfl := isPresent_eq_false.1 (Bool.eq_false_iff.2 absent)
    refine ⟨.none, rfl, ⟨.none, .inr rfl⟩, fun s' _ => isNestedIn_none s', fun r' h => ?_⟩
    exact h .none (.inr rfl)

theorem foldl_register (h : f.Covers t R) (syms : List SymbolId) :
    (syms.foldl (OwnerFinder.register t) f).Covers t fun s => R s ∨ s ∈ syms := by
  induction syms generalizing f R with
  | nil => simpa using h
  | cons s syms ih => simpa [or_assoc] using ih (h.register s)

end OwnerFinder

/-! ## What a finder registers -/

namespace SymbolTable

/-- Not an alias, nor a generic class or type without its arguments. -/
def IsNormal (t : SymbolTable) : Ty → Prop
  | .ref _ s args => (t.get s).isAliasType = false ∧ (t.tparams s = [] ∨ args ≠ [])
  | _ => True

variable {t : SymbolTable} {ty c : Ty}

theorem mem_localParts (h : c ∈ t.children ty) : c ∈ t.localParts ty ∨ c = .noPrefix := by
  unfold localParts
  split
  · exact (List.mem_cons.1 h).symm
  · exact .inr (List.mem_singleton.1 h)
  · exact .inl h

end SymbolTable

theorem SymbolTable.IsNormal.normalize {t : SymbolTable}
    {ty : Ty} (h : t.IsNormal ty) (fuel : Nat) : normalize fuel ty t = .ok ty t := by
  cases ty with
  | ref pre s args =>
    obtain ⟨plain, applied⟩ := h
    have given : (!(t.get s).tparams.isEmpty && args.isEmpty) = false := by
      obtain none | some := applied
      · simp [show (t.get s).tparams = [] from none]
      · simp [some]
    show (if (t.get s).isAliasType then _ else do
      if !(t.get s).tparams.isEmpty && args.isEmpty &&
        !(← getThe SymbolTable).isRaw (.ref pre s args) then _
      else pure (.ref pre s args) : SymM Ty) t = _
    rw [plain, given]
    rfl
  | _ => rfl

namespace OwnerFinder

variable {t : SymbolTable} {f f1 f2 : OwnerFinder} {tys tys' : List Ty} {ty : Ty}

/-- `f'` has been at `tys` and what they consist of, and has registered it. -/
structure Traverses (t : SymbolTable) (f : OwnerFinder)
    (tys : List Ty) (f' : OwnerFinder) : Prop where
  kept : f.visited.elems ⊆ f'.visited.elems
  met : tys ⊆ f'.visited.elems
  closed : ∀ x ∈ f'.visited.elems, x ∉ f.visited.elems → t.localParts x ⊆ f'.visited.elems
  only : ∀ x ∈ f'.visited.elems, x ∈ f.visited.elems ∨ ∃ ty ∈ tys, t.Reaches ty x
  covers : f'.Covers t fun s => ∃ x ∈ f'.visited.elems, t.localOwner? x = some s

theorem Traverses.trans (h : Traverses t f tys f1)
    (h' : Traverses t f1 tys' f2) : Traverses t f (tys ++ tys') f2 where
  kept := List.Subset.trans h.kept h'.kept
  met := List.append_subset.2 ⟨List.Subset.trans h.met h'.kept, h'.met⟩
  closed x mem new := by
    by_cases old : x ∈ f1.visited.elems
    · exact List.Subset.trans (h.closed x old new) h'.kept
    · exact h'.closed x mem old
  only x mem := by
    obtain mem | ⟨ty, hty, reach⟩ := h'.only x mem
    · exact (h.only x mem).imp_right fun ⟨ty, hty, reach⟩ => ⟨ty, List.mem_append_left _ hty, reach⟩
    · exact .inr ⟨ty, List.mem_append_right _ hty, reach⟩
  covers := h'.covers

theorem visited_note (new : ty ∉ f.visited.elems) :
    (f.note t ty).visited.elems = ty :: f.visited.elems := by
  have noted : (f.visited.insert ty).elems = ty ::
    f.visited.elems := by rw [KeySet.elems_insert, if_neg new]
  unfold note
  cases t.localOwner? ty with
  | none => exact noted
  | some s =>
    dsimp only [Option.elim, register]
    split
    · split <;> exact noted
    · exact noted

/-- A finder covers what is local to the types it has been at. -/
def IsUpToDate (t : SymbolTable) (f : OwnerFinder) : Prop :=
  f.Covers t fun s => ∃ x ∈ f.visited.elems, t.localOwner? x = some s

theorem IsUpToDate.note (h : f.IsUpToDate t) (new : ty ∉ f.visited.elems) :
    (f.note t ty).IsUpToDate t := by
  unfold IsUpToDate
  rw [visited_note new]
  unfold OwnerFinder.note
  cases hs : t.localOwner? ty with
  | none => simpa [hs] using (show Covers t { f with visited := f.visited.insert ty } _ from h)
  | some s =>
    have := Covers.register (f := { f with visited := f.visited.insert ty }) h s
    simpa [hs, or_comm, eq_comm] using this

/-- A type that the finder has been at is passed over; another is noted before the components are
gone to. -/
theorem traverse_normal (fuel : Nat) (f : OwnerFinder) (normal : t.IsNormal ty) :
    traverse (fuel + 1) f ty t =
      if ty ∈ f.visited.elems then
        .ok f t else (t.localParts ty).foldlM (traverse fuel) (f.note t ty) t := by
  rw [traverse_succ, CheckM.bind_ok (normal.normalize fuel)]
  by_cases seen : ty ∈ f.visited.elems
  · rw [if_pos (KeySet.contains_iff.2 seen), if_pos seen]
    rfl
  · rw [if_neg fun h => seen (KeySet.contains_iff.1 h), if_neg seen]
    rfl

/-- Each type that the finder notes is one fewer to note, so as much fuel as there are types is
enough. -/
theorem traverse_traverses {U : Finset Ty}
    (inside : ∀ x ∈ U, t.IsNormal x ∧ ∀ c ∈ t.localParts x, c ∈ U)
    {fuel : Nat} (h : f.IsUpToDate t) (few : (U \ f.visited.elems.toFinset).card < fuel)
    {tys : List Ty} (within : ∀ ty ∈ tys, ty ∈ U) :
    ∃ f', tys.foldlM (traverse fuel) f t = .ok f' t ∧ Traverses t f tys f' := by
  induction fuel generalizing f tys with
  | zero => exact absurd few (Nat.not_lt_zero _)
  | succ fuel ih =>
    induction tys generalizing f with
    | nil =>
      exact ⟨f, rfl, List.Subset.refl _, nofun, fun _ mem new => absurd mem new, fun _ => .inl, h⟩
    | cons ty tys ihs =>
      obtain ⟨here, within⟩ := List.forall_mem_cons.1 within
      obtain ⟨normal, parts⟩ := inside ty here
      have first : ∃ f', traverse (fuel + 1) f ty t = .ok f' t ∧ Traverses t f [ty] f' := by
        rw [traverse_normal fuel f normal]
        split
        · next seen =>
            exact ⟨f, rfl, List.Subset.refl _, by simpa using seen, fun _ mem new =>
              absurd mem new, fun _ => .inl, h⟩
        next new =>
        have visited := visited_note (t := t) new
        have fewer : (U \ (f.note t ty).visited.elems.toFinset).card < fuel := by
          rw [visited, List.toFinset_cons, Finset.sdiff_insert]
          have := Finset.card_erase_lt_of_mem (Finset.mem_sdiff.2
            ⟨here, fun old => new (List.mem_toFinset.1 old)⟩)
          omega
        obtain ⟨f', run, kept, met, closed, only, covers⟩ := ih (h.note new) fewer parts
        rw [visited] at kept closed only
        refine ⟨f', run, List.Subset.trans (List.subset_cons_self ty _) kept, ?_, fun x mem new =>
          ?_, fun x mem => ?_, covers⟩
        · simpa using kept List.mem_cons_self
        · by_cases same : x = ty
          · exact same ▸ met
          · exact closed x mem fun old => (List.mem_cons.1 old).elim same new
        · obtain old | ⟨c, hc, reach⟩ := only x mem
          · obtain rfl | old := List.mem_cons.1 old
            · exact .inr ⟨x, List.mem_cons_self, .refl x⟩
            · exact .inl old
          · exact .inr ⟨ty, List.mem_cons_self, .child (localParts_subset hc) reach⟩
      obtain ⟨f1, run, traversed⟩ := first
      have fewer : (U \ f1.visited.elems.toFinset).card ≤ (U \ f.visited.elems.toFinset).card :=
        Finset.card_le_card (Finset.sdiff_subset_sdiff
          (Finset.Subset.refl U) fun x => by simpa using @traversed.kept x)
      obtain ⟨f2, run', traversed'⟩ := ihs traversed.covers (by omega) within
      exact ⟨f2, by rw [List.foldlM_cons, CheckM.bind_ok run, run'], traversed.trans traversed'⟩

theorem traverse_this {fuel : Nat} {c : SymbolId} {t' : SymbolTable}
    (run : traverse fuel f (.this c) t = .ok f1 t') :
    t' = t ∧ ∀ x ∈ f1.visited.elems, x = .this c ∨ x ∈ f.visited.elems := by
  cases fuel with
  | zero => cases run
  | succ fuel =>
    rw [traverse_normal fuel f (show t.IsNormal (.this c) from trivial)] at run
    split at run
    · cases run
      exact ⟨rfl, fun x mem => .inr mem⟩
    · next new =>
      cases run
      refine ⟨rfl, fun x mem => ?_⟩
      rw [visited_note new] at mem
      exact List.mem_cons.1 mem

/-- A finder that comes from each type to a new one has no answer, whatever the fuel. -/
theorem traverse_goes_on {c : SymbolId} {ty form : Nat → Ty}
    (normal : ∀ k fuel x t', normalize fuel (ty k) t = .ok x t' → x = form k ∧ t' = t)
    (next : ∀ k, t.localParts (form k) = [.this c, ty (k + 1)])
    (new : Function.Injective form) (fuel k : Nat) (unmet : ∀ j, k ≤ j → form j ∉ f.visited.elems)
    (f' : OwnerFinder) (t' : SymbolTable) : traverse fuel f (ty k) t ≠ .ok f' t' := by
  induction fuel generalizing f k f' t' with
  | zero => exact fun run => by cases run
  | succ fuel ih =>
    intro run
    rw [traverse_succ] at run
    obtain ⟨x, t1, normalized, noted⟩ := exists_of_bind run
    obtain ⟨rfl, rfl⟩ := normal k fuel x t1 normalized
    rw [if_neg fun seen => unmet k (Nat.le_refl k) (KeySet.contains_iff.1 seen)] at noted
    obtain ⟨_, _, got, parts⟩ := exists_of_bind noted
    cases got
    rw [next k, List.foldlM_cons] at parts
    obtain ⟨f1, t2, first, last⟩ := exists_of_bind parts
    obtain ⟨rfl, met⟩ := traverse_this first
    rw [List.foldlM_cons] at last
    obtain ⟨f2, t3, second, -⟩ := exists_of_bind last
    refine ih (k + 1) (fun j le mem => ?_) f2 t3 second
    rw [visited_note (unmet k (Nat.le_refl k))] at met
    obtain this | mem := met _ mem
    · have listed := next j
      rw [this] at listed
      cases listed
    obtain same | mem := List.mem_cons.1 mem
    · exact absurd (new same) (by omega)
    · exact unmet j (by omega) mem

end OwnerFinder

/-- What the types register: classes of paths `C.this`, owners of references without prefix. -/
def SymbolTable.IsLocalTo (t : SymbolTable) (types : List Ty) (s : SymbolId) : Prop :=
  ∃ ty ∈ types, ∃ x, t.Reaches ty x ∧ t.localOwner? x = some s

theorem commonOwner_isCommonOwner {t : SymbolTable}
    {types : List Ty} (normal : ∀ ty ∈ types, ∀ x, t.Reaches ty x → t.IsNormal x)
    {fuel : Nat} (enough : (types.flatMap t.reachable).toFinset.card < fuel) :
    ∃ r, commonOwner fuel types t = .ok r t ∧ t.IsCommonOwner (t.IsLocalTo types) r := by
  have mem_all : ∀ x, x ∈ (types.flatMap t.reachable).toFinset ↔ ∃ ty ∈ types, t.Reaches ty x :=
    fun x => by simp [mem_reachable]
  have inside : ∀ x ∈ (types.flatMap t.reachable).toFinset, t.IsNormal x ∧ ∀ c ∈ t.localParts x,
      c ∈ (types.flatMap t.reachable).toFinset := fun x mem => by
    obtain ⟨ty, hty, reach⟩ := (mem_all x).1 mem
    exact ⟨normal ty hty x reach, fun c hc => (mem_all c).2
      ⟨ty, hty, reach.trans (.child (localParts_subset hc) (.refl c))⟩⟩
  obtain ⟨f, run, traversed⟩ := OwnerFinder.traverse_traverses inside (f := {})
    (.inl ⟨rfl, by simp⟩) (by simpa using enough) fun ty mem => (mem_all ty).2 ⟨ty, mem, .refl ty⟩
  refine ⟨f.result, by rw [commonOwner, CheckM.bind_ok run]; rfl, ?_⟩
  -- components that are not gone to are `noPrefix`, which registers nothing
  have reached : ∀ {ty x}, t.Reaches ty x → ty ∈ f.visited.elems ∨ ty = .noPrefix →
    x ∈ f.visited.elems ∨ x = .noPrefix := by
    intro ty x reach
    induction reach with
    | refl => exact id
    | inst hinst => cases hinst
    | child mem _ ih =>
      rintro (seen | rfl)
      · exact ih ((mem_localParts mem).imp_left fun h => traversed.closed _ seen nofun h)
      · cases mem
  have all : t.IsLocalTo types = fun s => ∃ x ∈ f.visited.elems, t.localOwner? x = some s := by
    funext s
    refine propext ⟨fun ⟨ty, hty, x, reach, loc⟩ => ⟨x, ?_, loc⟩, fun ⟨x, mem, loc⟩ => ?_⟩
    · refine (reached reach (.inl (traversed.met hty))).resolve_right ?_
      rintro rfl
      cases loc
    · obtain seen | ⟨ty, hty, reach⟩ := traversed.only x mem
      · cases seen
      · exact ⟨ty, hty, x, reach, loc⟩
  rw [all]
  exact traversed.covers.isCommonOwner

/-- However symbols are registered, what is found is the innermost symbol around them; likewise for
the symbols that types refer to locally. Neither the order nor repetitions matter. -/
theorem common_owner_is_innermost {t : SymbolTable} (ends : t.OwnersEnd) :
    (∀ syms : List SymbolId,
      t.IsCommonOwner (· ∈ syms) (syms.foldl (OwnerFinder.register t) {}).result ∧
      (.none ∈ syms → (syms.foldl (OwnerFinder.register t) {}).result = .none) ∧
      ∀ syms' : List SymbolId, (∀ s, s ∈ syms' ↔ s ∈ syms) →
        (syms'.foldl (OwnerFinder.register t) {}).result =
          (syms.foldl (OwnerFinder.register t) {}).result) ∧
    ∀ types : List Ty, (∀ ty ∈ types, ∀ x, t.Reaches ty x → t.IsNormal x) →
      ∃ r need, t.IsCommonOwner (t.IsLocalTo types) r ∧ ∀ fuel, need ≤ fuel →
      ∀ types', types'.Perm types → commonOwner fuel types' t = .ok r t := by
  refine ⟨fun syms => ?_, fun types normal => ?_⟩
  · have found : ∀ syms : List SymbolId, t.IsCommonOwner (· ∈ syms)
      (syms.foldl (OwnerFinder.register t) {}).result := fun syms =>
      by simpa using (OwnerFinder.foldl_register (f := {}) (R := fun _ => False)
        (.inl ⟨rfl, fun _ => id⟩) syms).isCommonOwner
    refine ⟨found syms, fun mem => ?_, fun syms' same => ?_⟩
    · obtain ⟨none, -⟩ | ⟨-, innermost⟩ := found syms
      · exact absurd mem (none _)
      · exact eq_none_of_isNestedIn (innermost.around _ mem)
    · have := found syms'
      simp only [same] at this
      exact this.unique ends (found syms)
  · obtain ⟨r, -, owner⟩ := commonOwner_isCommonOwner normal (Nat.lt_succ_self _)
    refine ⟨r, (types.flatMap t.reachable).toFinset.card + 1, owner, fun fuel enough types' perm =>
      ?_⟩
    have reached : (types'.flatMap t.reachable).toFinset =
      (types.flatMap t.reachable).toFinset := by
      ext x
      simp [perm.mem_iff]
    obtain ⟨r', run, owner'⟩ := commonOwner_isCommonOwner
      (fun ty mem => normal ty (perm.mem_iff.1 mem))
      (show (types'.flatMap t.reachable).toFinset.card < fuel by rw [reached]; exact enough)
    have same : t.IsLocalTo types' = t.IsLocalTo types :=
      funext fun s => by simp only [IsLocalTo, perm.mem_iff]
    rw [same] at owner'
    rw [run, owner'.unique ends owner]

theorem common_owner_of_packages :
    SymbolTable.initial.OwnersEnd ∧
      SymbolTable.initial.IsCommonOwner (· ∈ [Known.string, Known.object, Known.any])
        ([Known.string, Known.object, Known.any].foldl (OwnerFinder.register .initial) {}).result ∧
      ∃ r need, SymbolTable.initial.IsCommonOwner (SymbolTable.initial.IsLocalTo
        [.this Known.string, .this Known.object]) r ∧ ∀ fuel, need ≤ fuel →
        commonOwner fuel [.this Known.object, .this Known.string] .initial = .ok r .initial := by
  have ends : SymbolTable.initial.OwnersEnd := by
    have known : ∀ i < SymbolTable.initial.size, SymbolTable.initial.owner^[4]
      ⟨i⟩ = .none := by decide +kernel
    have absent : SymbolTable.initial.owner .none = .none := by decide +kernel
    intro s
    by_cases hs : s.val < SymbolTable.initial.size
    · exact ⟨4, known s.val hs⟩
    · refine ⟨1, ?_⟩
      rw [Function.iterate_one, owner, get_of_size_le (Nat.le_of_not_lt hs)]
      exact absent
  obtain ⟨registered, located⟩ := common_owner_is_innermost ends
  obtain ⟨r, need, owner, run⟩ := located [.this Known.string, .this Known.object]
    fun ty mem x reach => by
    obtain rfl | rfl : ty = .this Known.string ∨ ty = .this Known.object := by simpa using mem
    all_goals
      cases reach with
      | refl => trivial
      | child mem => cases mem
  exact ⟨ends, (registered _).1, r, need, owner, fun fuel enough => run fuel enough _ (.swap ..)⟩

end Conformance

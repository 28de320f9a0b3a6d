import Conformance.Proofs.Owners
import Conformance.Proofs.Walk.Views

/-! # Common owners, run twice

The types that a finder has been at are a set; what becomes of a search depends on their list
only. -/

namespace Conformance

open SymbolTable Relabeling

variable {t : SymbolTable}

namespace Relabeling.Reads

variable {ρ : Relabeling} {t t' : SymbolTable} (h : ρ.Reads t t')
include h

theorem ownersUpTo (n : Nat) (s : SymbolId) : t'.ownersUpTo
    n (ρ.move s) = ρ.move (t.ownersUpTo n s) := by
  induction n generalizing s with
  | zero => rfl
  | succ n ih =>
    rw [SymbolTable.ownersUpTo, SymbolTable.ownersUpTo, isPresent_moveSym, h.owner, ih]
    split <;> rfl

theorem find?_ownerChain {p p' : SymbolId → Bool} (hp : ∀ c, p' (ρ.move c) = p c) (s : SymbolId) :
    (t'.ownerChain (ρ.move s)).find? p' = ρ.move ((t.ownerChain s).find? p) := by
  have same : (ρ.move (t.ownersUpTo (max t.size t'.size + 1) s)).find? p' =
      ρ.move ((t.ownersUpTo (max t.size t'.size + 1) s).find? p) := by
    rw [move_list, List.find?_map]
    exact congrArg (fun p => (List.find? p _).map _) (funext hp)
  rw [← find?_ownersUpTo (n := max t.size t'.size + 1) (by omega),
    h.ownersUpTo, same, find?_ownersUpTo (by omega)]

theorem isNestedIn (s owner : SymbolId) : t'.isNestedIn (ρ.move s)
    (ρ.move owner) = t.isNestedIn s owner := by
  have chain : (t'.ownerChain (ρ.move s)).contains
    (ρ.move owner) = (t.ownerChain s).contains owner := by
    have found := congrArg Option.isSome (@find?_ownerChain _ _ _ h (· == owner)
      (· == ρ.move owner) (fun c => move_beq c owner) s)
    rw [isSome_move, Bool.eq_iff_iff, List.find?_isSome, List.find?_isSome] at found
    rw [Bool.eq_iff_iff, List.contains_iff_mem, List.contains_iff_mem]
    simpa using found
  rw [SymbolTable.isNestedIn, SymbolTable.isNestedIn, chain, isPresent_moveSym]

theorem localOwner? (ty : Ty) : t'.localOwner? (ρ.move ty) = ρ.move (t.localOwner? ty) := by
  cases ty with
  | single pre s | ref pre s args => cases pre <;> simp [SymbolTable.localOwner?, h.owner]
  | _ => rfl

theorem localParts (ty : Ty) : t'.localParts (ρ.move ty) = ρ.move (t.localParts ty) := by
  cases ty with
  | single pre s | ref pre s args =>
    cases pre <;> simp [SymbolTable.localParts, SymbolTable.children]
  | _ => simp [SymbolTable.localParts, SymbolTable.children, h.infos]

end Relabeling.Reads

namespace OwnerFinder

/-- What is found when `s` is to be enclosed as well. -/
def widened (t : SymbolTable) (found : Option SymbolId) (s : SymbolId) : Option SymbolId :=
  (register t { found } s).found

/-- What is found, and the types that were traversed. -/
def view (f : OwnerFinder) : Option SymbolId × List Ty := (f.found, f.visited.elems)

/-- The traversal on views. -/
def search : Nat → Option SymbolId × List Ty → Ty → SymM (Option SymbolId × List Ty)
  | 0, _, _ => throw .exhausted
  | fuel + 1, f, ty => do
    let ty ← normalize fuel ty
    if f.2.contains ty then return f
    let t ← get
    (t.localParts ty).foldlM (search fuel) ((t.localOwner? ty).elim f.1 (widened t f.1), ty :: f.2)

theorem view_note {f : OwnerFinder} {ty : Ty} (new : ty ∉ f.visited.elems) : (f.note t ty).view =
    ((t.localOwner? ty).elim f.found (widened t f.found), ty :: f.visited.elems) := by
  have noted : (f.visited.insert ty).elems = ty ::
    f.visited.elems := by rw [KeySet.elems_insert, if_neg new]
  unfold note
  cases t.localOwner? ty with
  | none => exact congrArg (Prod.mk f.found) noted
  | some s =>
    rw [← noted]
    dsimp only [Option.elim, widened, register, view]
    split
    · split <;> rfl
    · rfl

theorem view_foldlM {f : OwnerFinder → Ty → SymM OwnerFinder}
    {g : Option SymbolId × List Ty → Ty → SymM (Option SymbolId × List Ty)}
    (h : ∀ f' ty, g (view f') ty = view <$> f f' ty)
    (f' : OwnerFinder) (tys : List Ty) : tys.foldlM g (view f') = view <$> tys.foldlM f f' := by
  induction tys generalizing f' with
  | nil => rfl
  | cons ty tys ih => simp only [List.foldlM_cons, map_bind, ← ih, h, bind_map_left]

theorem view_traverse (fuel : Nat) (f : OwnerFinder)
    (ty : Ty) : search fuel f.view ty = view <$> traverse fuel f ty := by
  induction fuel generalizing f ty with
  | zero => rfl
  | succ fuel ih =>
    rw [search, traverse_succ, map_bind]
    refine congrArg _ (funext fun ty => ?_)
    have seen : f.view.2.contains ty = true ↔ f.visited.contains ty = true := by
      rw [KeySet.contains_iff, List.contains_iff_mem]
      rfl
    by_cases visited : f.visited.contains ty = true
    · rw [if_pos visited, if_pos (seen.2 visited)]
      rfl
    · rw [if_neg visited, if_neg fun h => visited (seen.1 h), map_bind]
      refine congrArg _ (funext fun t => ?_)
      rw [← view_foldlM ih, view_note fun mem => visited (KeySet.contains_iff.2 mem)]
      rfl

end OwnerFinder

open OwnerFinder

theorem commonOwner_eq (fuel : Nat) (types : List Ty) :
    commonOwner fuel types = do return (← types.foldlM (search fuel) (none, [])).1.getD .none := by
  show types.foldlM (traverse fuel) {} >>= _ = types.foldlM (search fuel) (view {}) >>= _
  rw [view_foldlM (view_traverse fuel), bind_map_left]
  rfl

section Walk

variable {sc : Scope} {ρ : Relabeling} {b n : Nat} {Fit : List SymbolId → List SymbolId → Prop}
  {P : PairContract SymM} {fuel : Nat} {ty : Ty}

theorem Relabeling.Reads.widened {t' : SymbolTable}
    (h : ρ.Reads t t') (found : Option SymbolId) (s : SymbolId) :
    OwnerFinder.widened t' (ρ.move found) (ρ.move s) = ρ.move (OwnerFinder.widened t found s) := by
  unfold OwnerFinder.widened register
  cases found with
  | none => rfl
  | some current =>
    simp only [move_some, isPresent_moveSym]
    split
    · rw [h.find?_ownerChain (h.isNestedIn s)]
      cases (t.ownerChain current).find? (t.isNestedIn s) with
      | none => simp
      | some owner => rfl
    · rfl

theorem Scope.ClosedAt.localOwner? (ht : sc.ClosedAt n t)
    (hty : sc.In n ty) : sc.In n (t.localOwner? ty) := by
  unfold SymbolTable.localOwner?
  split
  · exact .some hty.this_sym
  · exact .some (ht.owner hty.ref_sym)
  · exact .some (ht.owner hty.single_sym)
  · exact .none

theorem Scope.ClosedAt.widened (ht : sc.ClosedAt n t) {found : Option SymbolId} {s : SymbolId}
    (hfound : sc.In n found) (hs : sc.In n s) : sc.In n (OwnerFinder.widened t found s) := by
  unfold OwnerFinder.widened register
  cases found with
  | none => exact .some hs
  | some current =>
    dsimp only
    split
    · refine Scope.In.some (a := _) ?_
      cases hfind : (t.ownerChain current).find? (t.isNestedIn s) with
      | none => exact sc.in_none _
      | some o => exact ht.ownersUpTo (hfound current rfl) _ o (List.mem_of_find?_eq_some hfind)
    · exact .some hs

variable (h : TableWalk sc ρ b Fit P)
include h

theorem search_walks {f : Option SymbolId × List Ty} (hf : sc.In n f) (hty : sc.In n ty) :
    P n (search fuel f ty) (search fuel (ρ.move f) (ρ.move ty)) sc.In := by
  induction fuel generalizing n f ty with
  | zero => exact h.exhausted
  | succ fuel ih =>
    refine h.bind (normalize_walks h hty) fun ty m hm hty => ?_
    refine h.ite (by simp) (h.ret rfl (hf.mono hm)) (h.get_bind fun {k} t t' ht reads hn => ?_)
    have hty := hty.mono hn
    have hf := hf.mono (Nat.le_trans hm hn)
    have noted : (t'.localOwner? (ρ.move ty)).elim (ρ.move f).1 (OwnerFinder.widened
        t' (ρ.move f).1) = ρ.move ((t.localOwner? ty).elim f.1 (OwnerFinder.widened t f.1)) := by
      rw [reads.localOwner?]
      cases t.localOwner? ty with
      | none => rfl
      | some s => exact reads.widened _ s
    rw [reads.localParts, noted]
    have found : sc.In k ((t.localOwner? ty).elim f.1 (OwnerFinder.widened t f.1)) := by
      cases hs : t.localOwner? ty with
      | none => exact hf.1
      | some s => exact ht.widened hf.1 (ht.localOwner? hty s hs)
    exact h.foldlM sc.stable (Q := sc.In) ⟨found, .cons hty hf.2⟩ fun acc part mem k' hk' hacc =>
      ih hacc ((ht.children hty _ (localParts_subset mem)).mono hk')

theorem commonOwner_walks {types : List Ty} (htypes : sc.In n types) :
    P n (commonOwner fuel types) (commonOwner fuel (ρ.move types)) sc.In := by
  rw [commonOwner_eq, commonOwner_eq]
  have start : sc.In n ((none, []) : Option SymbolId × List Ty) := ⟨.none, .nil⟩
  refine h.bind (h.foldlM sc.stable start fun acc ty mem k hk hacc =>
    search_walks h hacc ((htypes ty mem).mono hk)) fun f k _ hf => h.ret ?_ ?_
  · cases hfound : f.1 <;> simp [hfound]
  · cases hfound : f.1 with
    | none => exact sc.in_none _
    | some s => exact hf.1 s hfound

end Walk

end Conformance

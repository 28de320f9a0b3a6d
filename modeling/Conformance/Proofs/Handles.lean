import Conformance.Intern.TypeStore
import Conformance.Proofs.Names

/-! # Handles keep their structure

A type store is only ever appended to: the nodes that handles are looked up as and the lists that
they name stay where they are, whatever is interned later. So a handle that stands for a type goes
on standing for that type. -/

namespace Conformance

namespace TypeStore

/-- The type that a handle stands for, as far as `n` levels of nodes tell; none if a handle or a
list in it is unknown or the type is deeper. -/
def structure? (st : TypeStore) : Nat → TypeHandle → Option Ty
  | 0, _ => none
  | n + 1, h => do
    let types (id : TypeListId) :
      Option (List Ty) := do (← st.typeLists.lists[id.val]?).mapM (st.structure? n)
    let symbols (id : SymbolListId) : Option (List SymbolId) := st.symbolLists.lists[id.val]?
    match ← st.lookup? h with
    | .noType => return .noType
    | .noPrefix => return .noPrefix
    | .error => return .error
    | .wildcard => return .wildcard
    | .this s => return .this s
    | .single pre s => return .single (← st.structure? n pre) s
    | .const value => return .const value
    | .ref pre s args => return .ref (← st.structure? n pre) s (← types args)
    | .refined parents decls cls => return .refined (← types parents) (← symbols decls) cls
    | .exist quantified body => return .exist (← symbols quantified) (← st.structure? n body)
    | .annotated annotations body =>
      return .annotated (← symbols annotations) (← st.structure? n body)
    | .boundedWildcard bounds => return .boundedWildcard (← st.structure? n bounds)
    | .bounds lo hi => return .bounds (← st.structure? n lo) (← st.structure? n hi)
    | .method params result flags =>
      return .method (← symbols params) (← st.structure? n result) flags
    | .nullary result => return .nullary (← st.structure? n result)
    | .poly tparams result => return .poly (← symbols tparams) (← st.structure? n result)
    | .var v => return .var v
    | .notNull body => return .notNull (← st.structure? n body)

/-- What a store holds, a later one holds in the same place. -/
structure Within (st st' : TypeStore) : Prop where
  node {h : TypeHandle} {d : TypeNode} : st.lookup? h = some d → st'.lookup? h = some d
  types {i : Nat} {xs : List TypeHandle} : st.typeLists.lists[i]? = some xs →
    st'.typeLists.lists[i]? = some xs
  symbols {i : Nat} {xs : List SymbolId} : st.symbolLists.lists[i]? = some xs →
    st'.symbolLists.lists[i]? = some xs

theorem Within.refl (st : TypeStore) : st.Within st := ⟨id, id, id⟩

theorem Within.trans {st1 st2 st3 : TypeStore} (h : st1.Within st2)
    (h' : st2.Within st3) : st1.Within st3 :=
  ⟨fun hn => h'.node (h.node hn), fun ht => h'.types (h.types ht), fun hs =>
    h'.symbols (h.symbols hs)⟩

section Structure

variable {α β : Type}

theorem bind_some_mono {x y : Option α} {f g : α → Option β}
    (hx : ∀ a, x = some a → y = some a) (hf : ∀ a b, f a = some b → g a = some b)
    (b : β) (h : x >>= f = some b) : y >>= g = some b := by
  obtain ⟨a, ha, hb⟩ := Option.bind_eq_some_iff.1 h
  exact Option.bind_eq_some_iff.2 ⟨a, hx a ha, hf a b hb⟩

theorem mapM_some_mono {f g : α → Option β} (hf : ∀ a b, f a = some b → g a = some b)
    (xs : List α) (ys : List β) (h : xs.mapM f = some ys) : xs.mapM g = some ys := by
  induction xs generalizing ys with
  | nil => exact h
  | cons x xs ih =>
    rw [List.mapM_cons] at h ⊢
    exact bind_some_mono (hf x) (fun y => bind_some_mono ih fun _ _ => id) ys h

end Structure

theorem Within.structure? {st st' : TypeStore} (hst : st.Within st') (n : Nat) (h : TypeHandle)
    (ty : Ty) (hty : st.structure? n h = some ty) : st'.structure? n h = some ty := by
  induction n generalizing h ty with
  | zero => cases hty
  | succ n ih =>
    have types : ∀ (id : TypeListId) tys, (st.typeLists.lists[id.val]? >>=
        (List.mapM (st.structure? n) ·)) = some tys →
        (st'.typeLists.lists[id.val]? >>= (List.mapM (st'.structure? n) ·)) = some tys := fun _ =>
      bind_some_mono (fun _ => hst.types) (mapM_some_mono ih)
    have symbols : ∀ (id : SymbolListId) ss, st.symbolLists.lists[id.val]? = some ss →
        st'.symbolLists.lists[id.val]? = some ss := fun _ _ => hst.symbols
    refine bind_some_mono (fun _ => hst.node) (fun d ty hty => ?_) ty hty
    cases d with
    | noType | noPrefix | error | wildcard | this | const | var => exact hty
    | single pre => exact bind_some_mono (ih pre) (fun _ _ => id) ty hty
    | ref pre s args =>
      exact bind_some_mono (ih pre) (fun _ => bind_some_mono (types args) fun _ _ => id) ty hty
    | refined parents decls cls =>
      exact bind_some_mono (types parents) (fun _ => bind_some_mono (symbols decls) fun _ _ => id)
        ty hty
    | exist ss body | annotated ss body | method ss body | poly ss body =>
      exact bind_some_mono (symbols ss) (fun _ => bind_some_mono (ih body) fun _ _ => id) ty hty
    | boundedWildcard body | nullary body | notNull body =>
      exact bind_some_mono (ih body) (fun _ _ => id) ty hty
    | bounds lo hi =>
      exact bind_some_mono (ih lo) (fun _ => bind_some_mono (ih hi) fun _ _ => id) ty hty

end TypeStore

/-! ## Interning -/

theorem Pool.get?_intern {α : Type} [DecidableEq α]
    [Hashable α] {n : Nat} (p : Pool α n) (limit : Nat) (shard : Fin n) (x : α) {a : Address n}
    {y : α} (h : p.get? a = some y) : (p.intern limit shard x).2.get? a = some y := by
  obtain ⟨_, _, eq⟩ | ⟨_, eq⟩ | ⟨new, eq⟩ := p.intern_cases limit shard x
  · rwa [eq]
  · rwa [eq]
  · rw [eq, p.get?_push, if_neg, h]
    rintro rfl
    rw [p.get?_size] at h
    cases h

theorem ListPool.getElem?_intern {α : Type} [DecidableEq α]
    [Hashable α] (p : ListPool α) (xs : List α) {i : Nat}
    {ys : List α} (h : p.lists[i]? = some ys) : (p.intern xs).2.lists[i]? = some ys := by
  unfold ListPool.intern
  split
  · exact h
  · split
    · exact h
    · have bound : i < p.lists.size := (Array.getElem?_eq_some_iff.1 h).1
      show (p.lists.push xs)[i]? = some ys
      rw [Array.getElem?_push, if_neg (Nat.ne_of_lt bound), h]

namespace TypeStore

/-- What a type store can be asked to store. -/
inductive Build where
  | node (d : TypeNode)
  | types (xs : List TypeHandle)
  | symbols (xs : List SymbolId)
  | ref (pre : TypeHandle) (sym : SymbolId) (args : List TypeHandle)
  | refined (parents : List TypeHandle) (decls : List SymbolId) (cls : SymbolId)
  | existential (quantified : List SymbolId) (body : TypeHandle)
  | annotate (annotations : List SymbolId) (body : TypeHandle)
  | lambda (tparams : List SymbolId) (result : TypeHandle)
  | method (params : List SymbolId) (result : TypeHandle) (flags : MethodFlags)
  | boundedWildcard (lo hi : TypeHandle)

variable (shardOf : TypeNode → Fin 32) (st : TypeStore)

/-- The store afterwards. -/
def build : Build → TypeStore
  | .node d => (st.intern shardOf d).2
  | .types xs => (st.internTypes xs).2
  | .symbols xs => (st.internSymbols xs).2
  | .ref pre sym args => (st.ref shardOf pre sym args).2
  | .refined parents decls cls => (st.refined shardOf parents decls cls).2
  | .existential quantified body => (st.existential shardOf quantified body).2
  | .annotate annotations body => (st.annotate shardOf annotations body).2
  | .lambda tparams result => (st.lambda shardOf tparams result).2
  | .method params result flags => (st.method shardOf params result flags).2
  | .boundedWildcard lo hi => (st.boundedWildcard shardOf lo hi).2

theorem within_intern (d : TypeNode) : st.Within (st.intern shardOf d).2 := by
  unfold intern
  split
  · exact .refl st
  · have kept : ∀ {a : Address 32} {y : TypeNode}, st.pool.get? a = some y →
        (st.pool.intern shardLimit (shardOf d) d).2.get? a = some y := st.pool.get?_intern _ _ _
    -- sentinels are looked up in no store
    have within : st.Within { st with pool := (st.pool.intern shardLimit (shardOf d) d).2 } := by
      refine ⟨fun {h d} hd => ?_, id, id⟩
      unfold lookup? at hd ⊢
      cases hs : TypeNode.ofSentinel? h with
      | some d' =>
        rw [hs] at hd
        exact hd
      | none =>
        rw [hs] at hd
        exact kept hd
    split
    next heq =>
      rw [heq] at within
      exact within
    next heq =>
      rw [heq] at within
      exact within

theorem within_internTypes (xs : List TypeHandle) : st.Within (st.internTypes xs).2 :=
  ⟨id, st.typeLists.getElem?_intern xs, id⟩

theorem within_internSymbols (xs : List SymbolId) : st.Within (st.internSymbols xs).2 :=
  ⟨id, id, st.symbolLists.getElem?_intern xs⟩

theorem within_build (b : Build) : st.Within (st.build shardOf b) := by
  have wrapped : ∀ (ss : List SymbolId) (d : SymbolListId → TypeNode), st.Within
      ((st.internSymbols ss).2.intern shardOf (d (st.internSymbols ss).1)).2 := fun ss d =>
    (st.within_internSymbols ss).trans (within_intern shardOf _ _)
  cases b with
  | node d => exact st.within_intern shardOf d
  | types xs => exact st.within_internTypes xs
  | symbols xs => exact st.within_internSymbols xs
  | ref pre sym args => exact (st.within_internTypes args).trans (within_intern shardOf _ _)
  | refined parents decls cls =>
    refine (st.within_internTypes parents).trans (Within.trans ?_ (within_intern shardOf _ _))
    exact within_internSymbols _ decls
  | existential ss body =>
    rw [build, existential]
    split
    · exact .refl st
    · exact wrapped ss (.exist · body)
  | annotate ss body =>
    rw [build, annotate]
    split
    · exact .refl st
    · exact wrapped ss (.annotated · body)
  | lambda ss result =>
    rw [build, lambda]
    split
    · exact .refl st
    · exact wrapped ss (.poly · result)
  | method ss result flags => exact wrapped ss (.method · result flags)
  | boundedWildcard lo hi =>
    exact (st.within_intern shardOf (.bounds lo hi)).trans
      (within_intern shardOf _ (.boundedWildcard (st.intern shardOf (.bounds lo hi)).1))

theorem within_builds (bs : List Build) : st.Within (bs.foldl (build shardOf) st) := by
  induction bs generalizing st with
  | nil => exact .refl st
  | cons b bs ih => exact (st.within_build shardOf b).trans (ih _)

end TypeStore

end Conformance

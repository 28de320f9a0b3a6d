import Conformance.Proofs.Reach
import Conformance.Proofs.Walk.Relabeling
import Conformance.Proofs.Scope.Closed

/-! # Tables under other names

A second table reads as a first one under other names if it reads every relabeled symbol as the
relabeled record. What is computed from records is then relabeled, too. -/

namespace Conformance

open SymbolTable

/-- The second table reads every symbol, by its other name, as the first one does. -/
structure Relabeling.Reads (ρ : Relabeling) (t t' : SymbolTable) : Prop where
  get (s : SymbolId) : t'.get (ρ.move s) = ρ.move (t.get s)

namespace Relabeling

theorem reads_same (t : SymbolTable) : same.Reads t t := ⟨fun s => by rw [same_move, same_move]⟩

namespace Reads

variable {ρ : Relabeling} {t t' : SymbolTable} {ty : Ty} (h : ρ.Reads t t')
include h

theorem owner (s : SymbolId) : t'.owner (ρ.move s) =
    ρ.move (t.owner s) := by simp [SymbolTable.owner, h.get]

theorem kind (s : SymbolId) : t'.kind (ρ.move s) = t.kind s := by simp [SymbolTable.kind, h.get]

theorem flags (s : SymbolId) : t'.flags (ρ.move s) = t.flags s := by simp [SymbolTable.flags, h.get]

theorem info (s : SymbolId) : t'.info (ρ.move s) =
    ρ.move (t.info s) := by simp [SymbolTable.info, h.get]

theorem name (s : SymbolId) : t'.name (ρ.move s) = t.name s := by simp [SymbolTable.name, h.get]

theorem tparams (s : SymbolId) : t'.tparams (ρ.move s) =
    ρ.move (t.tparams s) := by simp [SymbolTable.tparams, h.get]

theorem infosOf (ss : List SymbolId) : (ρ.move ss).map t'.info = ρ.move (ss.map t.info) :=
    move_map h.info ss

theorem prefixFor (s : SymbolId) : t'.prefixFor (ρ.move s) = ρ.move (t.prefixFor s) := by
  simp only [SymbolTable.prefixFor, isPresent_moveSym, h.kind]
  split <;> rfl

theorem prefixOf (s : SymbolId) : t'.prefixOf (ρ.move s) = ρ.move (t.prefixOf s) := by
  simp only [SymbolTable.prefixOf, h.flags, h.owner, h.prefixFor]
  split <;> rfl

theorem classType (s : SymbolId) (args : List Ty) :
    t'.classType (ρ.move s) (ρ.move args) = ρ.move (t.classType s args) := by
  simp [SymbolTable.classType, h.prefixOf]

theorem typeConstructor (s : SymbolId) : t'.typeConstructor
    (ρ.move s) = ρ.move (t.typeConstructor s) := h.classType s []

theorem paramRefs (ss : List SymbolId) : t'.paramRefs (ρ.move ss) = ρ.move (t.paramRefs ss) :=
    move_map h.typeConstructor ss

theorem typeRefOf (s : SymbolId) : t'.typeRefOf (ρ.move s) = ρ.move (t.typeRefOf s) := by
  simp [SymbolTable.typeRefOf, h.tparams, h.paramRefs, h.classType]

theorem boundsOf (s : SymbolId) : t'.boundsOf (ρ.move s) = ρ.move (t.boundsOf s) := by
  rw [SymbolTable.boundsOf, SymbolTable.boundsOf, h.info]
  cases t.info s <;> simp

theorem paramBounds (s : SymbolId) : t'.paramBounds (ρ.move s) = ρ.move (t.paramBounds s) := by
  simp [SymbolTable.paramBounds, h.boundsOf]

theorem isRaw (ty : Ty) : t'.isRaw (ρ.move ty) = t.isRaw ty := by
  cases ty with
  | ref pre s args => simp [SymbolTable.isRaw, h.get]
  | _ => rfl

theorem isHigherKinded (ty : Ty) : t'.isHigherKinded (ρ.move ty) = t.isHigherKinded ty := by
  cases ty with
  | ref pre s args =>
    have raw := h.isRaw (.ref pre s args)
    rw [move_ref] at raw ⊢
    simp [SymbolTable.isHigherKinded, h.get, raw]
  | _ => rfl

theorem parentClass (ty : Ty) : t'.parentClass (ρ.move ty) = ρ.move (t.parentClass ty) := by
  unfold SymbolTable.parentClass
  generalize Limits.aliasSteps = n
  induction n generalizing ty with
  | zero => simp [parentClassUpTo]
  | succ n ih =>
    cases ty with
    | ref pre s args =>
      simp only [move_ref, parentClassUpTo, h.get, isClass_move, isAliasType_move, h.info, ih]
      split
      · rfl
      · split
        · rfl
        · simp
    | annotated as body => exact ih body
    | refined parents decls cls => simp [parentClassUpTo]
    | _ => simp [parentClassUpTo]

theorem declsNamed (cls : SymbolId) (name : String) :
    t'.declsNamed (ρ.move cls) name = ρ.move (t.declsNamed cls name) := by
  rw [SymbolTable.declsNamed, SymbolTable.declsNamed, h.get, decls_move]
  exact move_filter (fun d => by simp [h.get]) _

theorem hides (s1 s2 : SymbolId) : t'.hides (ρ.move s1)
    (ρ.move s2) = t.hides s1 s2 := by simp [SymbolTable.hides, h.get]

theorem variancesConform (ps1 ps2 : List SymbolId) :
    t'.variancesConform (ρ.move ps1) (ρ.move ps2) = t.variancesConform ps1 ps2 := by
  rw [SymbolTable.variancesConform, SymbolTable.variancesConform, zip_move, move_list, List.all_map]
  congr 1
  funext p
  simp [h.get]

/-! ## Components -/

theorem infos (ss : List SymbolId) : t'.infos (ρ.move ss) = ρ.move (t.infos ss) := by
  rw [SymbolTable.infos, h.infosOf, move_filter isPresent_move, SymbolTable.infos]

theorem children (ty : Ty) : t'.children (ρ.move ty) = ρ.move (t.children ty) := by
  cases ty <;> simp [SymbolTable.children, h.infos]

theorem reaches {c : Ty} (hc : t.Reaches ty c) : t'.Reaches (ρ.move ty) (ρ.move c) := by
  induction hc with
  | refl => exact .refl _
  | child mem _ ih =>
    refine .child ?_ ih
    rw [h.children]
    exact mem_move.2 mem
  | inst hv => cases hv

theorem reaches_back {c' : Ty} (hc : t'.Reaches (ρ.move ty) c') :
    ∃ c, c' = ρ.move c ∧ t.Reaches ty c := by
  generalize hty : ρ.move ty = ty' at hc
  induction hc generalizing ty with
  | refl => exact ⟨ty, hty.symm, .refl _⟩
  | child mem _ ih =>
    subst hty
    rw [h.children] at mem
    obtain ⟨d, hd, rfl⟩ := List.mem_map.1 mem
    obtain ⟨c, rfl, reached⟩ := ih rfl
    exact ⟨c, rfl, .child hd reached⟩
  | inst hv => cases hv

theorem existsType {p p' : Ty → Bool} (hp : ∀ c, p' (ρ.move c) = p c) (ty : Ty) :
    t'.existsType (ρ.move ty) p' = t.existsType ty p := by
  rw [Bool.eq_iff_iff, existsType_iff, existsType_iff]
  constructor
  · rintro ⟨c', hc', holds⟩
    obtain ⟨c, rfl, reached⟩ := h.reaches_back hc'
    exact ⟨c, reached, hp c ▸ holds⟩
  · rintro ⟨c, hc, holds⟩
    exact ⟨ρ.move c, h.reaches hc, (hp c).trans holds⟩

theorem mentionsSymbol (ty : Ty) (s : SymbolId) : t'.mentionsSymbol (ρ.move ty)
    (ρ.move s) = t.mentionsSymbol ty s :=
  h.existsType (fun c => by cases c <;> simp) ty

theorem mentionsVar (ty : Ty) (v : VarId) : t'.mentionsVar (ρ.move ty)
    (ρ.move v) = t.mentionsVar ty v :=
  h.existsType (fun c => by cases c <;> simp) ty

theorem isRelatable (level : Nat) (ty : Ty) : t'.isRelatable
    level (ρ.move ty) = t.isRelatable level ty :=
  congrArg (!·) (h.existsType (fun c => by cases c <;> simp [h.get, h.flags]) ty)

end Reads

end Relabeling

/-! ## Two runs of an operation on types

An operation on types is run twice, over tables that read alike under other names. `P n x y Q` is a
contract of such a pair: the tables have `n` symbols at least, the second answer is the first one
under other names, and `Q` holds of the first at the size that its table has then. What has to hold
of the steps of operations for the contract to hold of the operations is a `TableWalk`. The walk
through the operations is made here, once. A property of single runs is a contract that ignores the
second run, and one that has nothing to do with names relabels nothing. -/

/-- What holds of an answer still holds when the table has grown. -/
def Stable {α : Type} (Q : Nat → α → Prop) : Prop := ∀ n m a, n ≤ m → Q n a → Q m a

theorem Scope.stable (sc : Scope) {α : Type} [Scoped α] : Stable fun n (a : α) => sc.In n a :=
  fun _ _ _ hnm h => h.mono hnm

/-- A symbol entered since the base. -/
def Scope.Fresh (sc : Scope) (b n : Nat) (s : SymbolId) : Prop := b ≤ s.val ∧ sc.In n s

theorem Scope.stable_fresh (sc : Scope) (b : Nat) : Stable (sc.Fresh b) :=
  fun _ _ _ hnm h => ⟨h.1, h.2.mono hnm⟩

/-! ## Sequences and loops -/

/-- What holds of the elements of a list from a size on holds of those behind the first from a later
one on. -/
theorem tail_later {α : Type} {R : Nat → α → Prop} {a : α} {as : List α} {n k : Nat}
    (h : ∀ b ∈ a :: as, ∀ m, n ≤ m → R m b) (hk : n ≤ k) : ∀ b ∈ as, ∀ m, k ≤ m → R m b :=
  fun b mem m hm => h b (List.mem_cons_of_mem _ mem) m (Nat.le_trans hk hm)

/-- What two runs and the first answer are to satisfy, from tables of a size on. -/
abbrev PairContract (m : Type → Type) : Type 1 :=
  {α : Type} → [Movable α] → Nat → m α → m α → (Nat → α → Prop) → Prop

/-- Contracts that answers and sequences have. -/
structure Paired (ρ : Relabeling) (m : Type → Type) [Monad m]
    (P : PairContract m) : Prop where
  pure {α : Type} [Movable α] {n : Nat} {a a' : α}
    {Q : Nat → α → Prop} : a' = ρ.move a → (∀ k, n ≤ k → Q k a) → P n (Pure.pure a) (Pure.pure a') Q
  bind {α β : Type} [Movable α] [Movable β] {n : Nat}
    {x y : m α} {f f' : α → m β} {R : Nat → α → Prop} {Q : Nat → β → Prop} :
    P n x y R → (∀ a k, n ≤ k → R k a → P k (f a) (f' (ρ.move a)) Q) → P n (x >>= f) (y >>= f') Q

namespace Paired

variable {ρ : Relabeling} {m : Type → Type} [Monad m]
  {P : PairContract m} (h : Paired ρ m P) {n : Nat}
  {α β : Type} [Movable α] [Movable β] {Q : Nat → β → Prop} {xs : List α} {f f' : α → m Bool}
include h

theorem ret [Scoped α] {sc : Scope} {a a' : α} (same : a' = ρ.move a) (ha : sc.In n a) :
    P n (Pure.pure a) (Pure.pure a') sc.In := h.pure same fun _ hk => ha.mono hk

theorem bool {sc : Scope} {b : Bool} : P n (Pure.pure b) (Pure.pure b) sc.In := h.ret rfl trivial

omit h in
theorem ite (_ : Paired ρ m P) {c c' : Prop} [Decidable c]
    [Decidable c'] (same : c' ↔ c) {x x' y y' : m α} {Q : Nat → α → Prop}
    (hx : P n x y Q) (hx' : P n x' y' Q) : P n (if c then x else x') (if c' then y else y') Q := by
  by_cases hc : c
  · rw [if_pos hc, if_pos (same.2 hc)]
    exact hx
  · rw [if_neg hc, if_neg fun hc' => hc (same.1 hc')]
    exact hx'

theorem imp [LawfulMonad m] {x y : m α} {Q R : Nat → α → Prop} (hR : Stable R) (hx : P n x y Q)
    (himp : ∀ k a, Q k a → R k a) : P n x y R := by
  have run := h.bind hx fun a k _ ha => h.pure rfl fun k' hk' => hR _ _ _ hk' (himp k a ha)
  rwa [bind_pure, bind_pure] at run

theorem mapM [LawfulMonad m] {f f' : α → m β} (hQ : Stable Q)
    (hf : ∀ a ∈ xs, ∀ k, n ≤ k → P k (f a) (f' (ρ.move a)) Q) :
    P n (xs.mapM f) ((ρ.move xs).mapM f') fun k ys => ys.length = xs.length ∧ ∀ y ∈ ys, Q k y := by
  induction xs generalizing n with
  | nil =>
    rw [Relabeling.move_nil, List.mapM_nil, List.mapM_nil]
    exact h.pure rfl fun _ _ => ⟨rfl, fun _ mem => nomatch mem⟩
  | cons a as ih =>
    rw [Relabeling.move_cons, List.mapM_cons, List.mapM_cons]
    refine h.bind (hf a List.mem_cons_self n (Nat.le_refl _)) fun y k hk hy => ?_
    refine h.bind (ih (tail_later hf hk)) fun ys k' hk' hys => h.pure rfl fun k'' hk'' =>
      ⟨congrArg Nat.succ hys.1, List.forall_mem_cons.2 ⟨?_, fun z hz => ?_⟩⟩
    · exact hQ _ _ _ (Nat.le_trans hk' hk'') hy
    · exact hQ _ _ _ hk'' (hys.2 z hz)

theorem foldlM {f f' : β → α → m β} {acc : β} (hQ : Stable Q) (hacc : Q n acc)
    (hf : ∀ acc, ∀ a ∈ xs, ∀ k, n ≤ k → Q k acc → P k (f acc a) (f' (ρ.move acc) (ρ.move a)) Q) :
    P n (xs.foldlM f acc) ((ρ.move xs).foldlM f' (ρ.move acc)) Q := by
  induction xs generalizing n acc with
  | nil => exact h.pure rfl fun _ hk => hQ _ _ _ hk hacc
  | cons a as ih =>
    refine h.bind (hf acc a List.mem_cons_self n (Nat.le_refl _) hacc) fun acc' k hk hacc' => ?_
    exact ih hacc' fun acc'' a' mem k' hk' => hf acc''
      a' (List.mem_cons_of_mem _ mem) k' (Nat.le_trans hk hk')

theorem foldlM_settled (settled : ∀ b : β, ρ.move b = b) {f f' : β → α → m β} (acc : β)
    (hf : ∀ acc, ∀ a ∈ xs, ∀ k, n ≤ k → P k (f acc a) (f' acc (ρ.move a)) fun _ _ => True) :
    P n (xs.foldlM f acc) ((ρ.move xs).foldlM f' acc) fun _ _ => True := by
  have run : P n (xs.foldlM f acc) ((ρ.move xs).foldlM f' (ρ.move acc)) fun _ _ => True :=
    h.foldlM (fun _ _ _ _ _ => trivial) trivial fun acc a mem k hk _ =>
      (settled acc).symm ▸ hf acc a mem k hk
  rwa [settled] at run

theorem forM {f f' : α → m PUnit}
    (hf : ∀ a ∈ xs, ∀ k, n ≤ k → P k (f a) (f' (ρ.move a)) fun _ _ => True) :
    P n (xs.forM f) ((ρ.move xs).forM f') fun _ _ => True := by
  induction xs generalizing n with
  | nil => exact h.pure rfl fun _ _ => trivial
  | cons a as ih =>
    refine h.bind (hf a List.mem_cons_self n (Nat.le_refl _)) fun _ k hk _ => ?_
    exact ih (tail_later hf hk)

theorem anyM (hf : ∀ a ∈ xs, ∀ k, n ≤ k → P k (f a) (f' (ρ.move a)) fun _ _ => True) :
    P n (xs.anyM f) ((ρ.move xs).anyM f') fun _ _ => True := by
  induction xs generalizing n with
  | nil => exact h.pure rfl fun _ _ => trivial
  | cons a as ih =>
    refine h.bind (hf a List.mem_cons_self n (Nat.le_refl _)) fun found k hk _ => ?_
    cases found with
    | true => exact h.pure rfl fun _ _ => trivial
    | false => exact ih (tail_later hf hk)

theorem allM (hf : ∀ a ∈ xs, ∀ k, n ≤ k → P k (f a) (f' (ρ.move a)) fun _ _ => True) :
    P n (xs.allM f) ((ρ.move xs).allM f') fun _ _ => True := by
  induction xs generalizing n with
  | nil => exact h.pure rfl fun _ _ => trivial
  | cons a as ih =>
    refine h.bind (hf a List.mem_cons_self n (Nat.le_refl _)) fun holds k hk _ => ?_
    cases holds with
    | true => exact ih (tail_later hf hk)
    | false => exact h.pure rfl fun _ _ => trivial

/-- The first answer found is one that an element gave. -/
theorem findSomeM? {f f' : α → m (Option β)} (hQ : Stable Q)
    (hf : ∀ a ∈ xs, ∀ k, n ≤ k → P k (f a) (f' (ρ.move a)) fun k o => ∀ b ∈ o, Q k b) :
    P n (xs.findSomeM? f) ((ρ.move xs).findSomeM? f') fun k o => ∀ b ∈ o, Q k b := by
  induction xs generalizing n with
  | nil => exact h.pure rfl fun _ _ _ mem => nomatch mem
  | cons a as ih =>
    refine h.bind (hf a List.mem_cons_self n (Nat.le_refl _)) fun o k hk ho => ?_
    cases o with
    | none => exact ih (tail_later hf hk)
    | some b => exact h.pure rfl fun k' hk' b' mem => hQ _ _ _ hk' (ho b' mem)

theorem filterM
    (hf : ∀ a ∈ xs, ∀ k, n ≤ k → P k (f a) (f' (ρ.move a)) fun _ _ => True) :
    P n (xs.filterM f) ((ρ.move xs).filterM f') fun _ ys => ∀ y ∈ ys, y ∈ xs := by
  -- the loop keeps what it has found in reverse
  have aux : ∀ (as acc : List α) (k : Nat), n ≤ k → (∀ a ∈ as, a ∈ xs) → (∀ a ∈ acc, a ∈ xs) →
      P k (as.filterAuxM f acc) ((ρ.move as).filterAuxM f' (ρ.move acc)) fun _ ys =>
      ∀ y ∈ ys, y ∈ xs := by
    intro as
    induction as with
    | nil => exact fun acc k _ _ hacc => h.pure rfl fun _ _ => hacc
    | cons a as ih =>
      intro acc k hk has hacc
      obtain ⟨ha, has⟩ := List.forall_mem_cons.1 has
      refine h.bind (hf a ha k hk) fun kept k' hk' _ => ?_
      cases kept with
      | true => exact ih (a :: acc) k' (Nat.le_trans hk hk') has (List.forall_mem_cons.2 ⟨ha, hacc⟩)
      | false => exact ih acc k' (Nat.le_trans hk hk') has hacc
  refine h.bind (aux xs [] n (Nat.le_refl _) (fun _ mem => mem) fun _ mem =>
    nomatch mem) fun ys k hk hys => ?_
  exact h.pure List.map_reverse.symm fun _ _ y mem => hys y (List.mem_reverse.1 mem)

end Paired

/-! ## Operations on the table -/

/-- A copy that is moved to another owner. -/
def SymM.cloneInto (owner s : SymbolId) : SymM SymbolId := do
  let copy ← SymM.cloneSymbol s
  modify (·.update copy ({ · with owner }))
  return copy

theorem SymM.cloneInto_bind {α : Type} (owner s : SymbolId)
    (f : SymbolId → SymM α) : SymM.cloneInto owner s >>= f = (do
    let copy ← SymM.cloneSymbol s
    modify (·.update copy ({ · with owner }))
    f copy) := rfl

/-- Contracts that the steps of operations on types have; a renaming, where `Fit` holds of its
lists. -/
structure TableWalk (sc : Scope) (ρ : Relabeling) (b : Nat)
    (Fit : List SymbolId → List SymbolId → Prop) (P : PairContract SymM) :
    Prop extends Paired ρ SymM P where
  get_bind {α : Type} [Movable α] {n : Nat} {f f' : SymbolTable → SymM α} {Q : Nat → α → Prop} :
    (∀ {m : Nat} t t', sc.ClosedAt m t → ρ.Reads t t' → n ≤ m → P m (f t) (f' t') Q) →
    P n (get >>= f) (get >>= f') Q
  exhausted {α : Type} [Movable α] {n : Nat} {Q : Nat → α → Prop} :
    P n (throw .exhausted) (throw .exhausted) Q
  enter {n : Nat} {owner : SymbolId} (howner : sc.In n owner)
    (name : String) (kind : SymbolKind) (flags : Flags) :
    P n (SymM.enter name owner kind flags) (SymM.enter name (ρ.move owner) kind flags) (sc.Fresh b)
  cloneSymbol {n : Nat} {s : SymbolId} (hs : sc.In n s) :
    P n (SymM.cloneSymbol s) (SymM.cloneSymbol (ρ.move s)) (sc.Fresh b)
  newTypeLike {n : Nat} {template owner : SymbolId}
    (htemplate : sc.In n template) (howner : sc.In n owner)
    (extra : Flags) (level : Nat) : P n (SymM.newTypeLike template owner extra level)
      (SymM.newTypeLike (ρ.move template) (ρ.move owner) extra level) (sc.Fresh b)
  setInfo {n : Nat} {s : SymbolId} {info : Ty} : sc.Fresh b n s → sc.In n info →
    P n (SymM.setInfo s info) (SymM.setInfo (ρ.move s) (ρ.move info)) fun _ _ => True
  cloneInto {n : Nat} {s owner : SymbolId} : sc.In n s → sc.In n owner →
    P n (SymM.cloneInto owner s) (SymM.cloneInto (ρ.move owner) (ρ.move s)) (sc.Fresh b)
  baseClasses {n : Nat} {s : SymbolId} : sc.In n s →
    P n (SymM.baseClasses s) (SymM.baseClasses (ρ.move s)) sc.In
  fit {src dst : List SymbolId} : src.length ≤ dst.length → Fit src dst
  renamedSymbol? {n : Nat} {src dst : List SymbolId} (s : SymbolId) : Fit src dst → sc.In n dst →
    P n (renamedSymbol? src dst s) (renamedSymbol? (ρ.move src) (ρ.move dst) (ρ.move s)) sc.In

/-- Contracts that are given only from one base on. -/
theorem TableWalk.based {sc : Scope} {ρ : Relabeling}
    {b0 : Nat} {Fit : List SymbolId → List SymbolId → Prop} {P : PairContract SymM}
    (h : TableWalk sc ρ b0 Fit P) (b : Nat) : TableWalk sc ρ b Fit fun n x y Q =>
    b = b0 → P n x y Q where
  pure same ha _ := h.pure same ha
  bind hx hf eq := h.bind (hx eq) fun a k hk ha => hf a k hk ha eq
  get_bind hf eq := h.get_bind fun t t' ht reads hn => hf t t' ht reads hn eq
  exhausted _ := h.exhausted
  enter howner name kind flags := by rintro rfl; exact h.enter howner name kind flags
  cloneSymbol hs := by rintro rfl; exact h.cloneSymbol hs
  newTypeLike
    htemplate howner extra level := by rintro rfl; exact h.newTypeLike htemplate howner extra level
  setInfo hs hinfo := by rintro rfl; exact h.setInfo hs hinfo
  cloneInto hs howner := by rintro rfl; exact h.cloneInto hs howner
  baseClasses hs _ := h.baseClasses hs
  fit := h.fit
  renamedSymbol? s fits hdst _ := h.renamedSymbol? s fits hdst

section Table

variable {sc : Scope} {ρ : Relabeling} {b n : Nat} {Fit : List SymbolId → List SymbolId → Prop}
  {P : PairContract SymM} (h : TableWalk sc ρ b Fit P) {s : SymbolId}
include h

open Relabeling

theorem record_walks (hs : sc.In n s) : P n (SymM.record s) (SymM.record (ρ.move s)) sc.Fits :=
  h.get_bind fun _ _ ht hr hn => h.pure (hr.get s) fun _ hm => (ht.records (hs.mono hn)).mono hm

theorem info_walks (hs : sc.In n s) : P n (SymM.info s) (SymM.info (ρ.move s)) sc.In :=
  h.get_bind fun _ _ ht hr hn => h.ret (hr.info s) (ht.info (hs.mono hn))

theorem refinedType_walks {parents : List Ty} {decls : List SymbolId} (hs : sc.Fresh b n s)
    (hparents : sc.In n parents) (hdecls : sc.In n decls) : P n (SymM.refinedType s parents decls)
      (SymM.refinedType (ρ.move s) (ρ.move parents) (ρ.move decls)) sc.In := by
  have refined : sc.In n (Ty.refined parents decls s) := .refined hparents hdecls hs.2
  have set := h.setInfo hs refined
  rw [move_refined] at set
  exact h.bind set fun _ m hm _ => h.ret (move_refined ..).symm (refined.mono hm)

/-! ## Classes -/

theorem isNonBottomSubClass_walks (hs : sc.In n s) (c : SymbolId) :
    P n (SymM.isNonBottomSubClass s c) (SymM.isNonBottomSubClass (ρ.move s) (ρ.move c)) sc.In :=
  h.ite (by simp) h.bool (h.bind (h.baseClasses hs) fun _ _ _ _ => h.ret (by simp) trivial)

/-- Deriving from a class that every table starts with. -/
theorem derives_walks (hs : sc.In n s) {c : SymbolId} (hc : c.val < Known.count) :
    P n (SymM.isNonBottomSubClass s c) (SymM.isNonBottomSubClass (ρ.move s) c) sc.In := by
  have derives := isNonBottomSubClass_walks h hs c
  rwa [move_known hc] at derives

theorem containsNull_walks (hs : sc.In n s) : P n (SymM.containsNull s)
    (SymM.containsNull (ρ.move s)) sc.In := by
  refine h.get_bind fun t t' _ hr hn => h.ite (by simp [hr.kind]) h.bool ?_
  refine h.bind (derives_walks h (hs.mono hn) (by decide)) fun value m hm _ =>
    h.ite (by simp) h.bool ?_
  exact h.bind (derives_walks h (hs.mono (Nat.le_trans hn hm)) (by decide)) fun _ _ _ _ => h.bool

theorem isSubClass_walks {s1 s2 : SymbolId} (h1 : sc.In n s1) (h2 : sc.In n s2) :
    P n (SymM.isSubClass s1 s2) (SymM.isSubClass (ρ.move s1) (ρ.move s2)) sc.In := by
  refine h.ite (by simp) h.bool (h.get_bind fun t t' _ hr hn => ?_)
  refine h.ite (by simp [hr.kind]) h.bool (h.ite (by simp) h.bool ?_)
  exact h.ite (by simp) (containsNull_walks h (h2.mono hn))
    (isNonBottomSubClass_walks h (h1.mono hn) s2)

end Table

end Conformance

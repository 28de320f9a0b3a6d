import Conformance.Proofs.Attains
import Conformance.Proofs.Walk.Members

/-! # Contracts of operations that enter symbols -/

namespace Conformance

variable {owner s : SymbolId}

/-- From a closed table of size `n` at least, `x` writes no record below `b`, leaves the table
closed, and answers, if it does, so that `Q` holds at the size that the table has then. -/
def Safe (sc : Scope) (b n : Nat) {α : Type} (x : SymM α) (Q : Nat → α → Prop) : Prop :=
  ∀ t, sc.Closed t → b ≤ t.size → n ≤ t.size → match x t with
    | .ok a t' => sc.Closed t' ∧ t.Extends b t' ∧ Q t'.size a
    | .error _ t' => sc.Closed t' ∧ t.Extends b t'

namespace Safe

variable {sc : Scope} {b n : Nat} {α β : Type} {x : SymM α} {P Q : Nat → α → Prop}

theorem pure {a : α} (h : ∀ m, n ≤ m → Q m a) : Safe sc b n (Pure.pure a) Q :=
  fun t ht _ hn => ⟨ht, .refl b t, h _ hn⟩

theorem ret [Scoped α] {a : α} (h : sc.In n a) : Safe sc b n (Pure.pure a) fun m a => sc.In m a :=
  .pure fun _ hn => h.mono hn

theorem throw (e : Failure) : Safe sc b n (MonadExcept.throw e : SymM α) Q :=
    fun t ht _ _ => ⟨ht, .refl b t⟩

theorem bind {f : α → SymM β} {Q : Nat → β → Prop} (hx : Safe sc b n x P)
    (hf : ∀ a m, n ≤ m → P m a → Safe sc b m (f a) Q) : Safe sc b n (x >>= f) Q := by
  intro t ht hb hn
  have first := hx t ht hb hn
  show match EStateM.bind x f t with | .ok a t' => _ | .error _ t' => _
  unfold EStateM.bind
  generalize x t = r at first ⊢
  cases r with
  | ok a t1 =>
    obtain ⟨ht1, grown, ha⟩ := first
    have second := hf a t1.size (Nat.le_trans hn grown.size_le)
      ha t1 ht1 (Nat.le_trans hb grown.size_le) (Nat.le_refl _)
    simp only
    cases h' : f a t1 with
    | ok a' t2 =>
      rw [h'] at second
      exact ⟨second.1, grown.trans second.2.1, second.2.2⟩
    | error e t2 =>
      rw [h'] at second
      exact ⟨second.1, grown.trans second.2⟩
  | error e t1 => exact first

theorem imp (hx : Safe sc b n x P) (h : ∀ m a, n ≤ m → P m a → Q m a) : Safe sc b n x Q := by
  intro t ht hb hn
  have run := hx t ht hb hn
  generalize x t = r at run ⊢
  cases r with
  | ok a t' => exact ⟨run.1, run.2.1, h _ _ (Nat.le_trans hn run.2.1.size_le) run.2.2⟩
  | error e t' => exact run

theorem get_bind {f : SymbolTable → SymM β} {Q : Nat → β → Prop}
    (h : ∀ t, sc.Closed t → b ≤ t.size → n ≤ t.size → Safe sc b t.size (f t) Q) :
    Safe sc b n (get >>= f) Q :=
  fun t ht hb hn => h t ht hb hn t ht hb (Nat.le_refl _)

end Safe

/-! ## Reading and writing the table -/

section Table

variable {sc : Scope} {b n : Nat} {t : SymbolTable}

theorem Scope.Closed.fits (ht : sc.Closed t) (hs : sc.In n s) (hn : n ≤ t.size) :
    sc.Fits t.size (t.get s) := ht.records (hs.mono hn)

theorem Scope.Closed.add (ht : sc.Closed t) {r : SymbolRecord}
    (hr : sc.Fits (t.size + 1) { r with id := t.nextId }) : sc.Closed (t.add r) := by
  have base := ht.base
  refine ⟨by rw [SymbolTable.size_add]; omega, fun {s} hs => ?_, fun {s classes} mem hs => ?_⟩
  · rw [SymbolTable.size_add] at hs ⊢
    obtain hs | rfl := sc.old hs
    · obtain h | h := t.get_add r s
      · rw [h]
        exact (ht.records hs).mono (Nat.le_succ _)
      · rw [h]
        exact hr
    · rw [show (⟨t.size⟩ : SymbolId) = t.nextId from rfl, t.get_add_self r]
      exact hr
  · rw [SymbolTable.size_add] at hs ⊢
    refine (ht.linearized mem fun hlt => ?_).mono (Nat.le_succ _)
    obtain hs | rfl := sc.old (hs (Nat.lt_succ_of_lt hlt))
    · exact hs
    · exact absurd hlt (Nat.lt_irrefl _)

theorem Scope.Closed.update (ht : sc.Closed t) (c : SymbolId) {f : SymbolRecord → SymbolRecord}
    (hf : ∀ r, sc.Fits t.size r → sc.Fits t.size (f r)) : sc.Closed (t.update c f) := by
  refine ⟨by rw [SymbolTable.size_update]; exact ht.base, fun {s} hs => ?_,
    fun {s classes} mem hs => ?_⟩
  · rw [SymbolTable.size_update] at hs ⊢
    obtain h | h := t.get_update c f s
    · rw [h]
      exact ht.records hs
    · rw [h]
      exact hf _ (ht.records hs)
  · rw [SymbolTable.size_update] at hs ⊢
    exact ht.linearized mem hs

theorem Scope.Closed.remember (ht : sc.Closed t) (s : SymbolId) {classes : List SymbolId}
    (hclasses : sc.In t.size classes) : sc.Closed (t.rememberLinearization s classes) := by
  refine ⟨ht.base, ht.records, fun {s' classes'} mem hs => ?_⟩
  obtain h | mem := List.mem_cons.1 mem
  · cases h
    exact hclasses
  · exact ht.linearized mem hs

theorem add_safe {f : SymbolTable → SymbolRecord}
    (hf : ∀ t, sc.Closed t → n ≤ t.size → sc.Fits (t.size + 1) { f t with id := t.nextId }) :
    Safe sc b n (modifyGet fun t => (t.nextId, t.add (f t))) (sc.Fresh b) := by
  intro t ht hb hn
  refine ⟨ht.add (hf t ht hn), t.extends_add hb _, hb, ?_⟩
  rw [SymbolTable.size_add]
  exact sc.fresh ht.base

theorem setInfo_safe {info : Ty} (hs : b ≤ s.val) (hinfo : sc.In n info) :
    Safe sc b n (SymM.setInfo s info) fun _ _ => True := by
  intro t ht _ hn
  refine ⟨ht.update s fun r hr => ?_, t.extends_update hs fun _ => rfl, trivial⟩
  exact ⟨hr.owner, hr.tparams, hinfo.mono hn, hr.parents, hr.decls, hr.companion⟩

theorem setOwner_safe (hs : b ≤ s.val) (howner : sc.In n owner) :
    Safe sc b n (modify (·.update s ({ · with owner }))) fun _ _ => True := by
  intro t ht _ hn
  refine ⟨ht.update s fun r hr => ?_, t.extends_update hs fun _ => rfl, trivial⟩
  exact ⟨howner.mono hn, hr.tparams, hr.info, hr.parents, hr.decls, hr.companion⟩

theorem enter_safe (howner : sc.In n owner) (name : String) (kind : SymbolKind) (flags : Flags) :
    Safe sc b n (SymM.enter name owner kind flags) (sc.Fresh b) := by
  refine add_safe fun t _ hn => ?_
  exact ⟨howner.mono (Nat.le_succ_of_le hn), .nil, .noType, .nil, .nil, fun _ => sc.in_none _⟩

theorem cloneSymbol_safe (hs : sc.In n s) : Safe sc b n (SymM.cloneSymbol s) (sc.Fresh b) := by
  refine add_safe fun t ht hn => ?_
  have fits := (ht.fits hs hn).mono (Nat.le_succ _)
  exact ⟨fits.owner, fits.tparams, fits.info, fits.parents, fits.decls, fits.companion⟩

theorem newTypeLike_safe {template : SymbolId} (htemplate : sc.In n template)
    (howner : sc.In n owner) (extra : Flags) (level : Nat) :
    Safe sc b n (SymM.newTypeLike template owner extra level) (sc.Fresh b) := by
  refine add_safe fun t ht hn => ?_
  have info := (ht.fits htemplate hn).info
  exact ⟨howner.mono (Nat.le_succ_of_le hn), .nil, info.mono (Nat.le_succ _), .nil, .nil, fun _ =>
    sc.in_none _⟩

theorem renamedSymbol?_safe {src : List SymbolId} (hdst : sc.In n dst) (s : SymbolId) :
    Safe sc b n (renamedSymbol? src dst s) fun m o => sc.In m o := by
  unfold renamedSymbol?
  split
  · exact .ret .none
  · split
    · rename_i _ s' h
      exact .ret (.some (hdst s' (List.mem_of_getElem? h)))
    · exact .throw _

theorem headed_in {tail : List SymbolId} (hs : sc.In n s)
    (htail : sc.In n tail) : sc.In n (SymbolTable.headed s tail) := by
  refine .cons hs ?_
  split
  · exact htail.filter _
  · exact htail

theorem linearize_safe (k : Nat) (active : List SymbolId) {s : SymbolId} (hs : sc.In n s) :
    Safe sc b n (SymM.linearize k active s) fun m classes => sc.In m classes := by
  intro t ht _ hn
  have size {t' : SymbolTable} (same : t'.records = t.records) : t'.size = t.size :=
    congrArg Array.size same
  have kept : SymM.Attains (fun t' => t'.records = t.records ∧ sc.Closed t')
      True (SymM.linearize k active s) fun classes => sc.In t.size classes := by
    refine SymM.linearize_attains (V := fun _ _ c => sc.In t.size c)
      (R := fun _ classes => sc.In t.size classes) ?_ (fun _ _ _ _ => .nil) ?_ (hs.mono hn)
    · intro t' _ _ c classes ⟨same, ht'⟩ hc found
      rw [← size same] at hc ⊢
      exact ht'.linearized (mem_of_lookup found) fun _ => hc
    · intro t' _ _ c ⟨same, ht'⟩ hc _ _ _
      have parents : sc.In t.size ((t'.get c).parents.map t'.parentClass) := by
        rw [← size same] at hc ⊢
        exact (ht'.records hc).parents.map fun _ h => ht'.at.parentClass h
      refine ⟨fun p hp _ => parents p hp, fun css hcss => ?_⟩
      have inherited : ∀ tail, sc.In t.size tail → sc.In t.size (css.foldl SymM.mixIn tail) := by
        generalize List.filter _ _ = ps at hcss
        induction hcss with
        | nil => exact fun _ h => h
        | cons added _ ih => exact fun tail htail => ih _ ((added.filter _).append htail)
      have classes := headed_in hc (inherited [] .nil)
      exact ⟨classes, fun t'' h => ⟨h.1, h.2.remember c (size h.1 ▸ classes)⟩⟩
  obtain ⟨classes, t', run, ⟨same, ht'⟩, hclasses⟩ := kept.run ⟨rfl, ht⟩ trivial
  rw [run]
  exact ⟨ht', .of_records same, size same ▸ hclasses⟩

/-- Safety, which ignores the second run. -/
theorem safe_walk (sc : Scope) (b : Nat) : TableWalk sc .same b (fun _ _ => True) fun n x _ Q =>
    Safe sc b n x Q where
  pure _ := .pure
  bind hx hf := hx.bind hf
  get_bind h := .get_bind fun t ht _ hn => h t t ht.at (Relabeling.reads_same t) hn
  exhausted := .throw _
  enter := enter_safe
  cloneSymbol := cloneSymbol_safe
  newTypeLike := newTypeLike_safe
  setInfo hs := setInfo_safe hs.1
  cloneInto hs howner := (cloneSymbol_safe hs).bind fun _ _ hm hc =>
    (setOwner_safe hc.1 (howner.mono hm)).bind fun _ _ hk _ =>
    .pure fun _ hk' => sc.stable_fresh b _ _ _ (Nat.le_trans hk hk') hc
  baseClasses := linearize_safe _ _
  fit _ := trivial
  renamedSymbol? s _ hdst := renamedSymbol?_safe hdst s

/-! ## Owners -/

/-- Symbols keep their owners, and new symbols have owners that were in scope when they were
entered. -/
structure Scope.Grows (sc : Scope) (t t' : SymbolTable) : Prop where
  kept {i : Nat} : i < t.size → (t'.records[i]?).map (·.owner) = (t.records[i]?).map (·.owner)
  new {i : Nat} {r : SymbolRecord} : t.size ≤ i → t'.records[i]? = some r → sc.In i r.owner

theorem Scope.Grows.of_size {t' : SymbolTable} (size : t'.size = t.size)
    (kept : ∀ i : Nat, (t'.records[i]?).map (·.owner) = (t.records[i]?).map (·.owner)) :
    sc.Grows t t' where
  kept _ := kept _
  new {i r} hi hr := absurd (Array.getElem?_eq_some_iff.1 hr).1
    (by rw [← size] at hi; exact Nat.not_lt.2 hi)

theorem Scope.Grows.add {r : SymbolRecord} (hr : sc.In t.size r.owner) : sc.Grows t (t.add r) := by
  refine ⟨fun {i} hi => ?_, fun {i r'} hi found => ?_⟩
  · rw [SymbolTable.getElem?_add, if_neg (Nat.ne_of_lt hi)]
  · rw [SymbolTable.getElem?_add] at found
    split at found
    next eq =>
      cases found
      rw [eq]
      exact hr
    next => exact absurd (Array.getElem?_eq_some_iff.1 found).1 (Nat.not_lt.2 hi)

/-- `G` holds of tables as they grow. -/
def Scope.Owns (sc : Scope) (G : SymbolTable → Prop) : Prop :=
    ∀ {t t' : SymbolTable}, sc.Closed t → G t → sc.Grows t t' → G t'

/-- A safe operation that keeps `G`. -/
structure Keeping (sc : Scope) (G : SymbolTable → Prop)
    (b n : Nat) {α : Type} (x : SymM α) (Q : Nat → α → Prop) : Prop where
  safe : Safe sc b n x Q
  keeps {t : SymbolTable} : sc.Closed t → b ≤ t.size → n ≤ t.size → G t → G (x.after t)

variable {G : SymbolTable → Prop} {α β : Type}

theorem Safe.keeping {x : SymM α} {Q : Nat → α → Prop}
    (h : Safe sc b n x Q) : Keeping sc (fun _ => True) b n x Q :=
  ⟨h, fun _ _ _ _ => trivial⟩

theorem Keeping.bind {x : SymM α} {f : α → SymM β}
    {P : Nat → α → Prop} {Q : Nat → β → Prop} (hx : Keeping sc G b n x P)
    (hf : ∀ a m, n ≤ m → P m a → Keeping sc G b m (f a) Q) : Keeping sc G b n (x >>= f) Q := by
  refine ⟨hx.safe.bind fun a m hm ha => (hf a m hm ha).safe, fun {t} ht hb hn hG => ?_⟩
  have run := hx.safe t ht hb hn
  have first := hx.keeps ht hb hn hG
  unfold SymM.after at first ⊢
  cases h : x t with
  | ok a t1 =>
    rw [h] at run first
    rw [CheckM.bind_ok h]
    exact (hf a t1.size (Nat.le_trans hn run.2.1.size_le) run.2.2).keeps
      run.1 (Nat.le_trans hb run.2.1.size_le) (Nat.le_refl _) first
  | error e t1 =>
    rw [h] at first
    rw [CheckM.bind_error h]
    exact first

theorem Keeping.of_grows (hG : sc.Owns G) {x : SymM α} {Q : Nat → α → Prop} (safe : Safe sc b n x Q)
    (grows : ∀ t, sc.Closed t → n ≤ t.size → sc.Grows t (x.after t)) : Keeping sc G b n x Q :=
  ⟨safe, fun ht _ hn held => hG ht held (grows _ ht hn)⟩

theorem keeping_walk (hG : sc.Owns G) (b : Nat) :
    TableWalk sc .same b (fun _ _ => True) fun n x _ Q => Keeping sc G b n x Q where
  pure _ h := ⟨.pure h, fun _ _ _ held => held⟩
  bind hx hf := hx.bind hf
  get_bind h := ⟨.get_bind fun t ht _ hn =>
    (h t t ht.at (Relabeling.reads_same t) hn).safe, fun {t} ht hb hn held =>
    (h t t ht.at (Relabeling.reads_same t) hn).keeps ht hb (Nat.le_refl _) held⟩
  exhausted := ⟨.throw _, fun _ _ _ held => held⟩
  enter howner name kind flags := .of_grows hG (enter_safe howner name kind flags) fun _ _ hn =>
    .add (howner.mono hn)
  cloneSymbol hs := .of_grows hG (cloneSymbol_safe hs) fun _ ht hn => .add (ht.fits hs hn).owner
  newTypeLike htemplate howner extra level :=
    .of_grows hG (newTypeLike_safe htemplate howner extra level) fun _ _ hn => .add (howner.mono hn)
  setInfo {_ s _} hs hinfo := .of_grows hG (setInfo_safe hs.1 hinfo) fun t _ _ =>
    .of_size (t.size_update s _) fun i => by
    show Option.map _ ((t.update s _).records[i]?) = _
    rw [SymbolTable.getElem?_update]
    split <;> simp [Function.comp_def]
  cloneInto {_ s owner} hs howner := .of_grows hG ((safe_walk sc b).cloneInto hs howner)
    fun t ht hn => by
    -- the copy has been entered under its owner at once
    have once := Scope.Grows.add (t := t) (r := { t.get s with owner }) (howner.mono hn)
    have same : ((SymM.cloneInto owner s).after t).records =
      (t.add { t.get s with owner }).records := by
      refine Array.ext_getElem? fun i => ?_
      show ((t.add (t.get s)).update t.nextId ({ · with owner })).records[i]? = _
      rw [SymbolTable.getElem?_update, SymbolTable.getElem?_add, SymbolTable.getElem?_add]
      by_cases last : i = t.size
      · rw [if_pos last, if_pos last, if_pos (show t.nextId.val = i from last.symm)]
        rfl
      · rw [if_neg last, if_neg last, if_neg (show ¬ t.nextId.val = i from fun h => last h.symm)]
    exact ⟨fun hi => by rw [same]; exact once.kept hi, fun hi => by rw [same]; exact once.new hi⟩
  baseClasses {_ s} hs := .of_grows hG (linearize_safe _ _ hs) fun t _ _ => by
    obtain ⟨cs, t', run, same⟩ := SymM.exists_linearize Limits.linearizationDepth [] s t
    rw [SymM.after, SymM.baseClasses, run]
    exact .of_size (congrArg Array.size same) fun i => by rw [same]
  fit _ := trivial
  renamedSymbol? {_ src dst} s _ hdst := ⟨renamedSymbol?_safe hdst s, fun {t} _ _ _ held => by
    have same : (renamedSymbol? src dst s).after t = t := by
      unfold renamedSymbol? SymM.after
      cases src.idxOf? s with
      | none => rfl
      | some i =>
        dsimp only
        cases dst[i]? <;> rfl
    rwa [same]⟩

end Table

end Conformance

import Conformance.Proofs.Along
import Conformance.Proofs.Attains
import Conformance.Proofs.Walk.Basic

/-! # Types rebuilt by maps

A map rebuilds a type level by level: where an info changes, its binder is copied and the body is
renamed to the copy. What comes out names what its parts were mapped to name, infos of bound symbols
included, so this is about the table that the map ends with. A copy is avoided until it has its
info, so that what is written to it concerns no type that is there. -/

namespace Conformance

variable {f : TypeMap} {ty : Ty} {cls : SymbolId}

/-- Symbols and variables that types may name. -/
structure Vocabulary where
  symbol : SymbolId → Prop := fun _ => True
  var : VarId → Prop := fun _ => True

/-- What a type itself names is in the vocabulary. -/
def Vocabulary.Has (N : Vocabulary) : Ty → Prop
  | .this s | .single _ s | .ref _ s _ => N.symbol s
  | .var v => N.var v
  | _ => True

namespace SymbolTable

/-- `ty` is nested less than `n` levels deep, names what is in `N`, and binds symbols of the table
that are not among `avoid`. -/
def Nested (t : SymbolTable) (N : Vocabulary) (avoid : List SymbolId) : Nat → Ty → Prop
  | 0, _ => False
  | n + 1, ty => N.Has ty ∧ (∀ c ∈ ty.parts, t.Nested N avoid n c) ∧
    ∀ b ∈ ty.binders, b.val < t.size ∧ b ∉ avoid ∧ t.Nested N avoid n (t.info b)

/-- Symbols of `t` that are not avoided have the same infos in `t'`, and are not avoided there. -/
def Carries (t : SymbolTable) (avoid : List SymbolId)
    (t' : SymbolTable) (avoid' : List SymbolId) : Prop :=
  ∀ b, b.val < t.size → b ∉ avoid → b.val < t'.size ∧ b ∉ avoid' ∧ t'.info b = t.info b

/-- Symbols were entered, and none was written. -/
abbrev Continues (t t' : SymbolTable) : Prop := t.Extends t.size t'

instance : IsPreorder SymbolTable Continues where
  refl t := .refl t.size t
  trans _ _ _ h h' := h.next h'

variable {t t' t'' : SymbolTable} {N N' : Vocabulary}
  {avoid avoid' avoid'' : List SymbolId} {n : Nat} {ty body : Ty} {c s : SymbolId}

theorem Extends.carries (h : t.Continues t') (avoid : List SymbolId) : t.Carries avoid t' avoid :=
  fun _ hb havoid =>
    ⟨Nat.lt_of_lt_of_le hb h.size_le, havoid, congrArg SymbolRecord.info (h.get_eq hb)⟩

theorem Carries.trans (h : t.Carries avoid t' avoid') (h' : t'.Carries avoid' t'' avoid'') :
    t.Carries avoid t'' avoid'' := by
  intro b hb havoid
  obtain ⟨hb', havoid', same⟩ := h b hb havoid
  obtain ⟨hb'', havoid'', same'⟩ := h' b hb' havoid'
  exact ⟨hb'', havoid'', same'.trans same⟩

/-- No symbol that is still to be entered has to be avoided. -/
theorem carries_new (avoid' : List SymbolId) (h : ∀ c ∈ avoid', t.size ≤ c.val) :
    t.Carries avoid t (avoid' ++ avoid) := by
  refine fun b hb havoid => ⟨hb, fun mem => ?_, rfl⟩
  obtain mem | mem := List.mem_append.1 mem
  · exact absurd hb (Nat.not_lt.2 (h b mem))
  · exact havoid mem

theorem carries_fewer (copies : List SymbolId) : t.Carries (copies ++ avoid) t avoid :=
  fun _ hb havoid => ⟨hb, fun mem => havoid (List.mem_append_right _ mem), rfl⟩

theorem get_update_ne (hs : s.val < t.size) (hne : s ≠ c) (f : SymbolRecord → SymbolRecord) :
    (t.update c f).get s = t.get s := by
  have ne : c.val ≠ s.val := fun h => hne (congrArg SymbolId.mk h.symm)
  have known : t.records[s.val]? = some t.records[s.val] := Array.getElem?_eq_getElem hs
  rw [get_eq_getD, get_eq_getD, getElem?_update, if_neg ne, known]
  rfl

theorem get_setInfo (hs : s.val < t.size) (info : Ty) :
    (t.setInfo s info).get s = { t.get s with info } := by
  have known : t.records[s.val]? = some t.records[s.val] := Array.getElem?_eq_getElem hs
  rw [setInfo, get_eq_getD, get_eq_getD, getElem?_update, if_pos rfl, known]
  rfl

theorem info_setInfo (hs : s.val < t.size) (info : Ty) : (t.setInfo s info).info s = info :=
  congrArg SymbolRecord.info (get_setInfo hs info)

theorem carries_update (hc : c ∈ avoid) (f : SymbolRecord → SymbolRecord) :
    t.Carries avoid (t.update c f) avoid := by
  intro b hb havoid
  have hne : b ≠ c := fun h => havoid (h ▸ hc)
  exact ⟨by rwa [size_update], havoid, congrArg SymbolRecord.info (get_update_ne hb hne f)⟩

namespace Nested

/-- Other tables and vocabularies, and more levels. -/
theorem imp {m : Nat} (h : t.Nested N avoid n ty) (hc : t.Carries avoid t' avoid')
    (hN : ∀ ty, N.Has ty → N'.Has ty) (le : n ≤ m) : t'.Nested N' avoid' m ty := by
  induction n generalizing ty m with
  | zero => exact h.elim
  | succ n ih =>
    obtain ⟨m, rfl⟩ : ∃ k, m = k + 1 := ⟨m - 1, by omega⟩
    obtain ⟨names, parts, binders⟩ := h
    refine ⟨hN ty names, fun c mem => ih (parts c mem) (by omega), fun b mem => ?_⟩
    obtain ⟨hb, havoid, info⟩ := binders b mem
    obtain ⟨hb', havoid', same⟩ := hc b hb havoid
    exact ⟨hb', havoid', same ▸ ih info (by omega)⟩

theorem carry (h : t.Nested N avoid n ty) (hc : t.Carries avoid t' avoid') :
    t'.Nested N avoid' n ty :=
  h.imp hc (fun _ => id) (Nat.le_refl n)

theorem succ (h : t.Nested N avoid n ty) : t.Nested N avoid (n + 1) ty :=
  h.imp (fun _ hb havoid => ⟨hb, havoid, rfl⟩) (fun _ => id) (Nat.le_succ n)

theorem pos (h : t.Nested N avoid n ty) : 0 < n := by
  cases n with
  | zero => exact h.elim
  | succ n => exact Nat.succ_pos n

/-- A type over one part and bound symbols. -/
theorem binder (hbody : t.Nested N avoid n body) (names : N.Has ty) (parts : ty.parts = [body])
    (binders : ∀ b ∈ ty.binders, b.val < t.size ∧ b ∉ avoid ∧ t.Nested N avoid n (t.info b)) :
    t.Nested N avoid (n + 1) ty :=
  ⟨names, fun _ mem => List.mem_singleton.1 (parts ▸ mem) ▸ hbody, binders⟩

/-- A wrapper that is left out where it binds nothing. -/
theorem wrapped {c : Prop} [Decidable c] {whole : Ty}
    (hbody : t.Nested N avoid n body) (hwhole : t.Nested N avoid (n + 1) whole) :
    t.Nested N avoid (n + 1) (if c then body else whole) := by
  split
  · exact hbody.succ
  · exact hwhole

/-- What the components name is in the vocabulary, too. -/
theorem has_of_reaches {c : Ty} (h : t.Nested N avoid n ty) (reach : t.Reaches ty c) : N.Has c := by
  induction reach generalizing n with
  | refl ty =>
    cases n with
    | zero => exact h.elim
    | succ n => exact h.1
  | child mem _ ih =>
    cases n with
    | zero => exact h.elim
    | succ n =>
      obtain ⟨-, parts, binders⟩ := h
      obtain part | info := mem_children.1 mem
      · exact ih (parts _ part)
      · obtain ⟨b, hb, rfl, -⟩ := mem_infos.1 info
        exact ih (binders b hb).2.2
  | inst hinst => cases hinst

end Nested

theorem nested_lasts : Lasts Continues (·.Nested N avoid n ·) :=
    fun _ _ _ h hty => hty.carry (h.carries avoid)

/-! ## Writing to symbols that are avoided -/

/-- Symbols were entered, and of those from `base` on some that are avoided were given other infos.
Infos that were nested are, be they new or not. -/
structure Rewrites (N : Vocabulary) (avoid : List SymbolId)
    (n base : Nat) (t t' : SymbolTable) : Prop where
  grown : t.Extends base t'
  carries : t.Carries avoid t' avoid
  rest {c : SymbolId} : c.val < t.size → ∃ info, t'.get c = { t.get c with info }
  infos {N' : Vocabulary} {c : SymbolId} : (∀ ty, N.Has ty → N'.Has ty) →
    c.val < t.size → t.Nested N' avoid n (t.info c) → t'.Nested N' avoid n (t'.info c)

variable {base : Nat}

instance : IsPreorder SymbolTable (Rewrites N avoid n base) where
  refl t := ⟨.refl _ t, fun _ hb havoid => ⟨hb, havoid, rfl⟩, fun _ => ⟨_, rfl⟩, fun _ _ h => h⟩
  trans _ _ _ h h' := by
    refine ⟨h.grown.trans h'.grown, h.carries.trans h'.carries, fun hc => ?_, fun hN hc hinfo =>
      h'.infos hN (Nat.lt_of_lt_of_le hc h.grown.size_le) (h.infos hN hc hinfo)⟩
    obtain ⟨_, first⟩ := h.rest hc
    obtain ⟨info, second⟩ := h'.rest (Nat.lt_of_lt_of_le hc h.grown.size_le)
    exact ⟨info, by rw [second, first]⟩

theorem Extends.rewrites (h : t.Continues t') (hbase : base ≤ t.size) :
    Rewrites N avoid n base t t' := by
  refine ⟨h.weaken hbase, h.carries avoid, fun hc => ⟨_, h.get_eq hc⟩, fun _ hc hinfo => ?_⟩
  rw [SymbolTable.info, h.get_eq hc]
  exact hinfo.carry (h.carries avoid)

theorem rewrites_setInfo {info : Ty} (hc : c ∈ avoid)
    (hbase : base ≤ c.val) (entered : c.val < t.size)
    (hinfo : t.Nested N avoid n info) : Rewrites N avoid n base t (t.setInfo c info) := by
  refine ⟨t.extends_update hbase fun _ => rfl, carries_update hc _, fun {s} hs =>
    ?_, fun {N' s} hN hs old => ?_⟩
  all_goals by_cases same : s = c
  · exact ⟨info, same ▸ get_setInfo entered info⟩
  · exact ⟨_, get_update_ne hs same _⟩
  · rw [same, info_setInfo entered]
    exact hinfo.imp (carries_update hc _) hN (Nat.le_refl n)
  · rw [SymbolTable.info, setInfo, get_update_ne hs same]
    exact old.carry (carries_update hc _)

/-- What is avoided is in the table, and what is not in the table may be named. -/
structure Ready (t : SymbolTable) (N : Vocabulary) (avoid : List SymbolId) : Prop where
  fresh : ∀ s : SymbolId, t.size ≤ s.val → N.symbol s
  below : ∀ c ∈ avoid, c.val < t.size

theorem Ready.later (h : t.Ready N avoid) (le : t.size ≤ t'.size) : t'.Ready N avoid :=
  ⟨fun s hs => h.fresh s (Nat.le_trans le hs), fun c mem => Nat.lt_of_lt_of_le (h.below c mem) le⟩

theorem Ready.not_mem (h : t.Ready N avoid) (new : t.size ≤ s.val) : s ∉ avoid := fun mem =>
  absurd (h.below s mem) (Nat.not_lt.2 new)

theorem Ready.append (h : t.Ready N avoid) {copies : List SymbolId}
    (new : ∀ c ∈ copies, c.val < t.size) : t.Ready N (copies ++ avoid) :=
  ⟨h.fresh, fun c mem => (List.mem_append.1 mem).elim (new c) (h.below c)⟩

end SymbolTable

open SymbolTable

section Maps

variable {α β : Type} {N N1 : Vocabulary} {avoid : List SymbolId}
  {n k base : Nat} {ok : Prop} {t : SymbolTable}

/-- `x` enters the symbols that it answers. -/
def Enters (x : SymM α) (syms : α → List SymbolId) (P : α → Prop) : Prop :=
  ∀ t, ∃ a t', x t = .ok a t' ∧ t.Continues t' ∧ P a ∧
    ∀ c ∈ syms a, t.size ≤ c.val ∧ c.val < t'.size

theorem enters_one {x : SymM SymbolId} {r : SymbolTable → SymbolRecord}
    (run : ∀ t, x t = .ok t.nextId (t.add (r t))) : Enters x ([·]) fun _ => True := by
  refine fun t => ⟨_, _, run t, t.extends_add (Nat.le_refl _) _, trivial, fun c mem => ?_⟩
  rw [List.mem_singleton.1 mem, size_add]
  exact ⟨Nat.le_refl _, Nat.lt_succ_self _⟩

/-- The symbols entered next, `n` of them. -/
def SymbolTable.nextIds (t : SymbolTable) (n : Nat) : List SymbolId :=
    (List.range' t.size n).map SymbolId.mk

theorem SymbolTable.nextIds_nodup (t : SymbolTable) (n : Nat) : (t.nextIds n).Nodup :=
  List.Nodup.map (fun _ _ => congrArg SymbolId.val) List.nodup_range'

/-- Symbols with records as `R` says are entered in turn. -/
theorem mapM_enters {f : α → SymM SymbolId} {R : α → SymbolId → SymbolRecord → Prop} {as : List α}
    (hf : ∀ a ∈ as, ∀ t1, t.Continues t1 → ∃ r, f a t1 = .ok t1.nextId (t1.add r) ∧ ∀ c, R
    a c { r with id := c }) : ∃ t', as.mapM f t = .ok (t.nextIds as.length) t' ∧ t.Continues t' ∧
      (∀ c ∈ t.nextIds as.length, t.size ≤ c.val ∧ c.val < t'.size) ∧
      List.Forall₂ (fun a c => R a c (t'.get c)) as (t.nextIds as.length) := by
  induction as generalizing t with
  | nil => exact ⟨t, rfl, .refl _ _, nofun, .nil⟩
  | cons a as ih =>
    obtain ⟨r, run, hr⟩ := hf a List.mem_cons_self t (.refl _ _)
    have first : t.Continues (t.add r) := t.extends_add (Nat.le_refl _) r
    obtain ⟨t', rest, grown, new, records⟩ := ih (t := t.add r) fun b mem t1 h1 =>
      hf b (List.mem_cons_of_mem _ mem) t1 (first.next h1)
    have ids : t.nextIds (as.length + 1) = t.nextId :: (t.add r).nextIds as.length := by
      rw [nextIds, nextIds, size_add, List.range'_succ, List.map_cons]
      rfl
    have entered : t.nextId.val < (t.add r).size := by
      rw [size_add]
      exact Nat.lt_succ_self _
    rw [List.length_cons, ids]
    refine ⟨t', ?_, first.next grown, List.forall_mem_cons.2
      ⟨⟨Nat.le_refl _, Nat.lt_of_lt_of_le entered grown.size_le⟩, fun c mem =>
      (new c mem).imp_left (Nat.le_trans first.size_le)⟩, .cons ?_ records⟩
    · rw [List.mapM_cons, CheckM.bind_ok run, CheckM.bind_ok rest]
      rfl
    · rw [grown.get_eq entered, get_add_self]
      exact hr _

theorem cloneEach_enters (ss : List SymbolId) : Enters
    (ss.mapM SymM.cloneSymbol) id (·.length = ss.length) := fun t => by
  obtain ⟨t', run, grown, new, copies⟩ := mapM_enters (t := t)
    (R := fun _ _ _ => True) fun s (_ : s ∈ ss) _ _ => ⟨_, rfl, fun _ => trivial⟩
  exact ⟨_, t', run, grown, copies.length_eq.symm, new⟩

/-- What is entered first may be written, while it is avoided. -/
theorem Enters.bind {x : SymM α} {syms : α → List SymbolId} {P : α → Prop}
    {f : α → SymM β} {Q : SymbolTable → β → Prop} (hx : Enters x syms P) (N : Vocabulary)
    (avoid : List SymbolId) (n : Nat) (hf : ∀ a t1 t2, t.Continues t1 → t1.Continues t2 → P a →
      (∀ c ∈ syms a, t1.size ≤ c.val ∧ c.val < t2.size) →
        Along (Rewrites N (syms a ++ avoid) n t1.size) ok t2 (f a) Q) :
    Along Continues ok t (x >>= f) Q := by
  intro t1 h1
  obtain ⟨a, t2, run, grown, ha, new⟩ := hx t1
  have rest := hf a t1 t2 h1 grown ha new t2 (refl_of _ t2)
  rw [CheckM.bind_ok run]
  generalize f a t2 = r at rest ⊢
  cases r with
  | error e t3 => exact rest
  | ok b t3 => exact ⟨grown.trans rest.1.grown, rest.2⟩

/-- With `k` units of fuel types over `N1` that are at most as deep are mapped to types over `N`. -/
def Substitutes (N1 N : Vocabulary) (k : Nat) (f : TypeMap) : Prop :=
  ∀ avoid n t ty, t.Ready N avoid → t.Nested N1 avoid n ty →
    Along Continues (n ≤ k) t (f ty) (·.Nested N avoid n ·)

/-- The substitutions that move a body to copies keep it nested. -/
structure Rebinding.Keeps (N : Vocabulary) (k : Nat) (rb : Rebinding) : Prop where
  rename {src dst : List SymbolId} : src.length ≤ dst.length →
    (∀ d ∈ dst, N.symbol d) → Substitutes N N k (rb.rename src dst)
  replaceThis (cls : SymbolId) {cls' : SymbolId} :
    N.symbol cls' → Substitutes N N k (rb.replaceThis cls (.this cls'))

theorem Substitutes.of_ok (hf : Substitutes N1 N k f) (hok : ok → n ≤ k) (ready : t.Ready N avoid)
    (hty : t.Nested N1 avoid n ty) : Along Continues ok t (f ty) (·.Nested N avoid n ·) :=
  (hf _ _ t _ ready hty).imp hok fun _ _ _ => id

/-- The same while symbols that are avoided are written. -/
theorem Substitutes.rewrites (hf : Substitutes N1 N k f) (hok : ok → n ≤ k)
    (ready : t.Ready N avoid) (hbase : base ≤ t.size) (hty : t.Nested N1 avoid n ty) :
    Along (Rewrites N avoid n base) ok t (f ty) (·.Nested N avoid n ·) :=
  .of_finer (fun _ h1 => hf.of_ok hok (ready.later h1.grown.size_le) (hty.carry h1.carries))
    fun _ _ h1 h => h.rewrites (Nat.le_trans hbase h1.grown.size_le)

/-- A symbol that is avoided is given an info. -/
theorem setInfo_along {x : SymM Ty} {c : SymbolId}
    (hc : c ∈ avoid) (hbase : base ≤ c.val) (entered : c.val < t.size)
    (hx : Along (Rewrites N avoid n base) ok t x (·.Nested N avoid n ·)) :
    Along (Rewrites N avoid n base) ok t (x >>= SymM.setInfo c) fun t _ =>
    c.val < t.size ∧ t.Nested N avoid n (t.info c) := by
  refine hx.bind fun info t1 h1 hinfo t2 h2 => ?_
  have entered' : c.val < t2.size := Nat.lt_of_lt_of_le entered (trans_of _ h1 h2).grown.size_le
  have hinfo' := hinfo.carry h2.carries
  refine ⟨rewrites_setInfo hc hbase entered' hinfo', (size_update ..).symm ▸ entered', ?_⟩
  rw [info_setInfo entered']
  exact hinfo'.carry (carries_update hc _)

theorem nested_info_lasts : Lasts (Rewrites N avoid n base) fun t c =>
    c.val < t.size ∧ t.Nested N avoid n (t.info c) :=
  fun _ _ _ h ⟨hc, hinfo⟩ => ⟨Nat.lt_of_lt_of_le hc h.grown.size_le, h.infos (fun _ => id) hc hinfo⟩

theorem cloneInto_enters (owner s : SymbolId) : Enters (SymM.cloneInto owner s) ([·]) fun _ =>
    True := by
  refine fun t =>
    ⟨t.nextId, _, rfl, (t.extends_add (Nat.le_refl _) (t.get s)).trans ?_, trivial, fun c mem => ?_⟩
  · exact (t.add _).extends_update (Nat.le_refl t.size) fun _ => rfl
  · rw [List.mem_singleton.1 mem, size_update, size_add]
    exact ⟨Nat.le_refl _, Nat.lt_succ_self _⟩

namespace Rebinding

variable {rb : Rebinding} (hrb : rb.Keeps N k) (hk : ok → n ≤ k)
  {f : TypeMap} (ready : t.Ready N avoid)
include hrb hk ready

/-- The body and the infos are moved to copies of the binders. -/
theorem copyBinder_along {binders : List SymbolId} {infos : List Ty} {body : Ty}
    (length : infos.length = binders.length) (hinfos : ∀ info ∈ infos, t.Nested N avoid n info)
    (hbody : t.Nested N avoid n body) : Along Continues ok t (do
      let copies ← binders.mapM SymM.cloneSymbol
      (copies.zip infos).forM
        fun (copy, info) => do SymM.setInfo copy (← rb.rename binders copies info)
      return (copies, ← rb.rename binders copies body) : SymM (List SymbolId × Ty)) fun t p =>
        t.Nested N avoid n p.2 ∧ ∀ b ∈ p.1, b.val < t.size ∧
        b ∉ avoid ∧ t.Nested N avoid n (t.info b) := by
  refine (cloneEach_enters binders).bind N avoid n fun copies t1 t2 h1 h2 count new => ?_
  have carried : t.Carries avoid t2 (copies ++ avoid) :=
    ((h1.carries avoid).trans (carries_new copies fun c mem => (new c mem).1)).trans (h2.carries _)
  have ready2 : t2.Ready N (copies ++ avoid) :=
    (ready.later (h1.next h2).size_le).append fun c mem => (new c mem).2
  have rename : Substitutes N N k (rb.rename binders copies) :=
    hrb.rename (Nat.le_of_eq count.symm) fun c mem =>
      ready.fresh c (Nat.le_trans h1.size_le (new c mem).1)
  refine (Along.forM (Q := fun t p => p.1.val < t.size ∧ t.Nested N (copies ++ avoid) n
    (t.info p.1)) (fun _ _ _ h => nested_info_lasts h) fun p mem => ?_).bind fun _ t3 h3 done => ?_
  · obtain ⟨hcopy, hinfo⟩ := List.of_mem_zip mem
    refine setInfo_along (List.mem_append_left _ hcopy) (new _ hcopy).1 (new _ hcopy).2 ?_
    exact rename.rewrites hk ready2 h2.size_le ((hinfos _ hinfo).carry carried)
  · refine (rename.rewrites hk (ready2.later h3.grown.size_le)
      (Nat.le_trans h2.size_le h3.grown.size_le) ((hbody.carry carried).carry h3.carries)).bind
      fun body' t4 h4 hbody' => .pure fun t5 h5 => ?_
    refine ⟨(hbody'.carry h5.carries).carry (carries_fewer copies), fun c mem => ?_⟩
    have listed :
      c ∈ (copies.zip infos).map Prod.fst := by rwa [List.map_fst_zip (by rw [count, length])]
    obtain ⟨p, pair, rfl⟩ := List.mem_map.1 listed
    obtain ⟨entered, hinfo⟩ := nested_info_lasts (trans_of _ h4 h5) (done p pair)
    exact ⟨entered, ready.not_mem (Nat.le_trans h1.size_le (new _ mem).1),
      hinfo.carry (carries_fewer copies)⟩

theorem mapBinder_along {binders : List SymbolId} {body : Ty}
    (hb : ∀ b ∈ binders, b.val < t.size ∧ b ∉ avoid)
    (hbody : Along Continues ok t (f body) (·.Nested N avoid n ·))
    (hinfos : ∀ b ∈ binders, Along Continues ok t (f (t.info b)) (·.Nested N avoid n ·)) :
    Along Continues ok t (rb.mapBinder f binders body) fun t p => t.Nested N avoid n p.2 ∧
      ∀ b ∈ p.1, b.val < t.size ∧ b ∉ avoid ∧ t.Nested N avoid n (t.info b) := by
  refine .get_bind fun t1 h1 => ?_
  have info : ∀ {t'}, t.Continues t' → ∀ b ∈ binders, t'.info b = t.info b := fun h b mem =>
    congrArg SymbolRecord.info (h.get_eq (hb b mem).1)
  have mapped : ∀ x ∈ binders.map t1.info, Along Continues ok t1 (f x) (·.Nested N avoid n ·) :=
    fun x mem => by
    obtain ⟨b, hb, rfl⟩ := List.mem_map.1 mem
    rw [info h1 b hb]
    exact (hinfos b hb).later h1
  refine (Along.mapM nested_lasts mapped).bind fun infos' t2 h2 ⟨length, hinfos'⟩ => ?_
  refine (hbody.later (h1.next h2)).bind fun body' t3 h3 hbody' => ?_
  have hinfos3 : ∀ info ∈ infos', t3.Nested N avoid n info :=
    fun info mem => nested_lasts h3 (hinfos' info mem)
  have h := (h1.next h2).next h3
  refine .ite (fun same => .pure fun t4 h4 => ⟨nested_lasts h4 hbody', fun b mem => ?_⟩) fun _ => ?_
  · refine ⟨Nat.lt_of_lt_of_le (hb b mem).1 (h.next h4).size_le,
      (hb b mem).2, nested_lasts h4 (hinfos3 _ ?_)⟩
    rw [same, info (h.next h4) b mem, ← info h1 b mem]
    exact List.mem_map_of_mem mem
  · exact copyBinder_along hrb hk (ready.later h.size_le)
      (length.trans (List.length_map _)) hinfos3 hbody'

/-- A member is copied with its info. -/
theorem copyMember_along {cls' d : SymbolId} {info : Ty} (named : N.symbol cls')
    (hbase : base ≤ t.size) (hinfo : t.Nested N avoid n info) : Along Continues ok t (do
      let copy ← SymM.cloneSymbol d
      modify (·.update copy ({ · with owner := cls' }))
      SymM.setInfo copy (← rb.replaceThis cls (.this cls') info)
      return copy : SymM SymbolId) fun t c => base ≤ c.val ∧
        c.val < t.size ∧ t.Nested N avoid n (t.info c) := by
  rw [← SymM.cloneInto_bind cls' d fun copy => do
    SymM.setInfo copy (← rb.replaceThis cls (.this cls') info)
    return copy]
  refine (cloneInto_enters cls' d).bind N avoid n fun copy t1 t2 h1 h2 _ new => ?_
  obtain ⟨new, entered⟩ := new copy List.mem_cons_self
  have carried : t.Carries avoid t2 ([copy] ++ avoid) :=
    ((h1.carries avoid).trans (carries_new [copy] fun c mem =>
      List.mem_singleton.1 mem ▸ new)).trans (h2.carries _)
  have ready2 : t2.Ready N ([copy] ++ avoid) :=
    (ready.later (h1.next h2).size_le).append fun c mem => List.mem_singleton.1 mem ▸ entered
  have replaced := (hrb.replaceThis cls named).rewrites hk ready2 h2.size_le (hinfo.carry carried)
  rw [← bind_assoc]
  refine (setInfo_along List.mem_cons_self new entered replaced).bind fun _ t3 h3 set =>
    .pure fun t4 h4 => ?_
  obtain ⟨entered', hinfo'⟩ := nested_info_lasts h4 set
  exact ⟨Nat.le_trans (Nat.le_trans hbase h1.size_le) new,
    entered', hinfo'.carry (carries_fewer [copy])⟩

theorem copyMembers_along {cls' : SymbolId} {members : List (SymbolId × Ty)} (named : N.symbol cls')
    (hbase : base ≤ t.size) (hmembers : ∀ p ∈ members, t.Nested N avoid n p.2) :
    Along Continues ok t (members.mapM fun (d, info) => (do
      let copy ← SymM.cloneSymbol d
      modify (·.update copy ({ · with owner := cls' }))
      SymM.setInfo copy (← rb.replaceThis cls (.this cls') info)
      return copy : SymM SymbolId))
      fun t cs => ∀ c ∈ cs, base ≤ c.val ∧ c.val < t.size ∧ t.Nested N avoid n (t.info c) := by
  refine (Along.mapM ?_ fun p mem => copyMember_along hrb hk ready named hbase (hmembers p mem)).imp
    id fun _ _ _ h => h.2
  rintro t1 t2 c h ⟨new, entered, hinfo⟩
  refine ⟨new, Nat.lt_of_lt_of_le entered h.size_le, ?_⟩
  rw [SymbolTable.info, h.get_eq entered]
  exact nested_lasts h hinfo

/-- The class is avoided until it has its info, which is the whole type. -/
theorem copyRefined_along {parents infos : List Ty}
    {decls : List SymbolId} (hparents : ∀ parent ∈ parents, t.Nested N avoid n parent)
    (hinfos : ∀ info ∈ infos, t.Nested N avoid n info) :
    Along Continues ok t (rb.copyRefined parents decls infos cls) (·.Nested N avoid (n + 1) ·) := by
  refine .get_bind fun t0 h0 => Enters.bind (enters_one fun _ => rfl)
    N avoid (n + 1) fun cls' t1 t2 h1 h2 _ new => ?_
  obtain ⟨new, entered⟩ := new cls' List.mem_cons_self
  have h := h0.next h1
  have carried : t.Carries avoid t2 ([cls'] ++ avoid) :=
    ((h.carries avoid).trans (carries_new [cls'] fun c mem => List.mem_singleton.1 mem ▸ new)).trans
      (h2.carries _)
  have ready2 : t2.Ready N ([cls'] ++ avoid) :=
    (ready.later (h.next h2).size_le).append fun c mem => List.mem_singleton.1 mem ▸ entered
  refine Along.bind (.of_finer (fun t3 h3 => copyMembers_along
    hrb hk (ready2.later h3.grown.size_le) (ready.fresh cls' (Nat.le_trans h.size_le new))
    h3.grown.size_le fun p mem => ?_) fun t3 _ h3 h' => ?_) fun decls' t3 h3 members => ?_
  · exact ((hinfos _ (List.of_mem_zip mem).2).carry carried).carry h3.carries
  · exact h'.rewrites (Nat.le_trans h2.size_le h3.grown.size_le)
  · have whole : t3.Nested N ([cls'] ++ avoid) (n + 1) (.refined parents decls' cls') := by
      refine ⟨trivial, fun parent mem => ((hparents parent mem).carry carried).carry h3.carries,
        fun d mem => ?_⟩
      obtain ⟨later, entered', hinfo⟩ := members d mem
      exact ⟨entered', ready2.not_mem later, hinfo⟩
    have answer : Along (Rewrites N ([cls'] ++ avoid) (n + 1) t1.size) ok t3
        (pure (.refined parents decls' cls') : SymM Ty) (·.Nested N ([cls'] ++ avoid) (n + 1) ·) :=
        .pure fun t4 h4 => whole.carry h4.carries
    have set := setInfo_along List.mem_cons_self new
      (Nat.lt_of_lt_of_le entered h3.grown.size_le) answer
    rw [pure_bind] at set
    exact set.bind fun _ t4 h4 _ => .pure fun t5 h5 =>
      (whole.carry (trans_of _ h4 h5).carries).carry (carries_fewer [cls'])

theorem mapRefined_along {parents : List Ty} {decls : List SymbolId}
    (hdecls : ∀ d ∈ decls, d.val < t.size ∧ d ∉ avoid)
    (hparents : ∀ parent ∈ parents, Along Continues ok t (f parent) (·.Nested N avoid n ·))
    (hinfos : ∀ d ∈ decls, Along Continues ok t (f (t.info d)) (·.Nested N avoid n ·)) :
    Along Continues ok t (rb.mapRefined f (.refined parents decls cls) parents decls cls)
      (·.Nested N avoid (n + 1) ·) := by
  refine (Along.mapM nested_lasts hparents).bind fun parents' t1 h1 ⟨_, hparents'⟩ => ?_
  -- the info that a member has by then is the one that it had
  have read : ∀ d ∈ decls, Along Continues ok t1 (SymM.info d >>= f) (·.Nested N avoid n ·) :=
    fun d mem =>
    .get_bind fun t2 h2 => by
      have same : t2.info d = t.info d := congrArg
        SymbolRecord.info ((h1.next h2).get_eq (hdecls d mem).1)
      rw [same]
      exact (hinfos d mem).later (h1.next h2)
  refine (Along.mapM nested_lasts read).bind fun infos' t2 h2 ⟨_, hinfos'⟩ =>
    .get_bind fun t3 h3 => ?_
  have h := (h1.next h2).next h3
  have hparents3 : ∀ parent ∈ parents', t3.Nested N avoid n parent := fun parent mem =>
    nested_lasts (h2.next h3) (hparents' parent mem)
  have hinfos3 : ∀ info ∈ infos', t3.Nested N avoid n info :=
    fun info mem => nested_lasts h3 (hinfos' info mem)
  refine .ite (fun _ => copyRefined_along hrb hk (ready.later h.size_le) hparents3 hinfos3)
    fun same => .pure fun t4 h4 => ?_
  have same : infos' = decls.map t3.info := by simpa using same
  have rebuilt : t3.Nested N avoid (n + 1) (.refined parents' decls cls) := by
    refine ⟨trivial, hparents3, fun d mem => ?_⟩
    exact ⟨Nat.lt_of_lt_of_le (hdecls d mem).1 h.size_le,
      (hdecls d mem).2, hinfos3 _ (same ▸ List.mem_map_of_mem mem)⟩
  refine nested_lasts h4 ?_
  split
  next unchanged => exact unchanged ▸ rebuilt
  next => exact rebuilt

theorem mapOver_along (names : N.Has ty) (hb : ∀ b ∈ ty.binders, b.val < t.size ∧ b ∉ avoid)
    (hparts : ∀ c ∈ ty.parts, Along Continues ok t (f c) (·.Nested N avoid n ·))
    (hinfos : ∀ b ∈ ty.binders, Along Continues ok t (f (t.info b)) (·.Nested N avoid n ·)) :
    Along Continues ok t (rb.mapOver f ty) (·.Nested N avoid (n + 1) ·) := by
  have direct : ty.binders = [] → (∀ (t : SymbolTable) cs, cs.length = ty.parts.length →
      (∀ c ∈ cs, t.Nested N avoid n c) → t.Nested N avoid (n + 1) (ty.withParts cs)) →
      Along Continues ok t (rb.mapOver f ty) (·.Nested N avoid (n + 1) ·) := by
    intro bare hbuild
    rw [mapOver_eq _ _ bare]
    refine (Along.mapM nested_lasts hparts).bind fun cs t1 _ ⟨length, hcs⟩ =>
      .pure fun t2 h2 => nested_lasts h2 ?_
    split
    next same => exact ⟨names, same ▸ hcs, by simp [bare]⟩
    next => exact hbuild _ cs length hcs
  have binder : ∀ (bs : List SymbolId) (body whole : Ty) (build : List SymbolId → Ty → Ty), body ∈
      ty.parts → ty.binders = bs → (∀ (t : SymbolTable) bs' body', t.Nested N avoid n body' →
      (∀ b ∈ bs', b.val < t.size ∧ b ∉ avoid ∧ t.Nested N avoid n (t.info b)) →
        t.Nested N avoid (n + 1) (build bs' body') ∧
          (bs' = bs ∧ body' = body → t.Nested N avoid (n + 1) whole)) →
      Along Continues ok t (do
        let built ← rb.mapBinder f bs body
        return if built.1 = bs ∧ built.2 = body then whole else build built.1 built.2)
          (·.Nested N avoid (n + 1) ·) := by
    rintro bs body whole build mem rfl hbuild
    refine (mapBinder_along hrb hk ready hb (hparts body mem) hinfos).bind fun built t1 _ h1 =>
      .pure fun t2 h2 => nested_lasts h2 ?_
    obtain ⟨hbody', hbs'⟩ := h1
    obtain ⟨built, kept⟩ := hbuild _ _ _ hbody' hbs'
    split
    next same => exact kept same
    next => exact built
  cases ty with
  | refined parents decls cls => exact mapRefined_along hrb hk ready hb hparts hinfos
  | single | boundedWildcard | nullary | notNull =>
    refine direct rfl fun t cs length hcs => ?_
    obtain ⟨c, rfl⟩ := List.length_eq_one_iff.1 length
    exact ⟨names, hcs, nofun⟩
  | annotated as =>
    refine direct rfl fun t cs length hcs => ?_
    obtain ⟨c, rfl⟩ := List.length_eq_one_iff.1 length
    exact (hcs c List.mem_cons_self).wrapped ⟨trivial, hcs, nofun⟩
  | ref pre s args =>
    refine direct rfl fun t cs length hcs => ?_
    obtain _ | ⟨pre', args'⟩ := cs
    · cases length
    · exact ⟨names, hcs, nofun⟩
  | bounds lo hi =>
    refine direct rfl fun t cs length hcs => ?_
    obtain ⟨lo', hi', rfl⟩ := List.length_eq_two.1 length
    exact ⟨trivial, hcs, nofun⟩
  | method bs body flags =>
    refine binder bs body _ (.method · · flags) List.mem_cons_self
      rfl fun t bs' body' hbody' hbs' => ?_
    have rebuilt : t.Nested N avoid (n + 1) (.method bs' body' flags) :=
      hbody'.binder trivial rfl hbs'
    exact ⟨rebuilt, fun same => same.1 ▸ same.2 ▸ rebuilt⟩
  | exist bs body =>
    refine binder bs body _ .existential List.mem_cons_self rfl fun t bs' body' hbody' hbs' => ?_
    have rebuilt : t.Nested N avoid (n + 1) (.exist bs' body') := hbody'.binder trivial rfl hbs'
    exact ⟨hbody'.wrapped rebuilt, fun same => same.1 ▸ same.2 ▸ rebuilt⟩
  | poly bs body =>
    refine binder bs body _ .lambda List.mem_cons_self rfl fun t bs' body' hbody' hbs' => ?_
    have rebuilt : t.Nested N avoid (n + 1) (.poly bs' body') := hbody'.binder trivial rfl hbs'
    exact ⟨hbody'.wrapped rebuilt, fun same => same.1 ▸ same.2 ▸ rebuilt⟩
  | _ => exact .pure fun _ _ => ⟨names, nofun, nofun⟩

end Rebinding

/-- The components of a nested type are mapped to nested types. -/
theorem Substitutes.mapOver {rb : Rebinding} (hrb : rb.Keeps N k) (hf : Substitutes N1 N k f)
    (ready : t.Ready N avoid) (hty : t.Nested N1 avoid n ty) (names : N.Has ty) :
    Along Continues (n ≤ k + 1) t (rb.mapOver f ty) (·.Nested N avoid n ·) := by
  cases n with
  | zero => exact hty.elim
  | succ n =>
    obtain ⟨-, parts, binders⟩ := hty
    have le : n + 1 ≤ k + 1 → n ≤ k := Nat.le_of_succ_le_succ
    exact Rebinding.mapOver_along hrb le ready names
      (fun b mem => ⟨(binders b mem).1, (binders b mem).2.1⟩) (fun c mem =>
      hf.of_ok le ready (parts c mem)) fun b mem => hf.of_ok le ready (binders b mem).2.2

/-- Renaming gives types over the new names and the old ones that are not renamed. -/
theorem subst_substitutes (k : Nat) : (∀ {N1 N : Vocabulary} {src dst : List SymbolId}, src.length ≤
    dst.length → (∀ d ∈ dst, N.symbol d) →
      (∀ s, N1.symbol s → s ∉ src → N.symbol s) → (∀ v, N1.var v → N.var v) →
        Substitutes N1 N k (substSym k src dst)) ∧
    ∀ {N : Vocabulary} {cls cls' : SymbolId}, N.symbol cls' →
      Substitutes N N k (substThis k cls (.this cls')) := by
  induction k with
  | zero =>
    exact ⟨fun _ _ _ _ _ _ _ _ _ hty => .fail (Nat.not_le.2 hty.pos), fun _ _ _ _ _ _ hty =>
      .fail (Nat.not_le.2 hty.pos)⟩
  | succ k ih =>
    have keeps : ∀ {N : Vocabulary}, (Rebinding.at k).Keeps N k := fun {N} =>
      ⟨fun length hdst => ih.1 length hdst (fun _ h _ => h) fun _ => id, fun _ => ih.2⟩
    constructor
    · intro N1 N src dst length hdst old vars avoid n t ty ready hty
      have parts := ih.1 length hdst old vars
      have mapped : N.Has ty → Along Continues (n ≤ k + 1)
          t ((Rebinding.at k).mapOver (substSym k src dst) ty) (·.Nested N avoid n ·) :=
          fun names => parts.mapOver keeps ready hty names
      obtain ⟨n, rfl⟩ : ∃ m, n = m + 1 := ⟨n - 1, by have := hty.pos; omega⟩
      have le : n + 1 ≤ k + 1 → n ≤ k := Nat.le_of_succ_le_succ
      unfold substSym
      refine .ite (fun trivially => ?_) fun _ => ?_
      · refine .pure fun t1 h1 => nested_lasts h1 ?_
        cases ty with
        | noType | noPrefix | error | wildcard => exact ⟨trivial, nofun, nofun⟩
        | _ =>
          have none : src = [] := by simpa [Ty.isSentinel] using trivially
          refine hty.imp (fun _ hb havoid => ⟨hb, havoid, rfl⟩) (fun ty h => ?_) (Nat.le_refl _)
          cases ty with
          | this | single | ref => exact old _ h (none ▸ List.not_mem_nil)
          | var => exact vars _ h
          | _ => trivial
      cases ty with
      | this s =>
        show Along _ _ _ (renamedSymbol? src dst s >>= _) _
        obtain ⟨other, eq⟩ | ⟨d, hd, eq⟩ := renamedSymbol?_cases length s
        · rw [eq]
          exact .pure fun _ _ => ⟨old s hty.1 other, nofun, nofun⟩
        · rw [eq]
          exact .pure fun _ _ => ⟨hdst d hd, nofun, nofun⟩
      | single pre s =>
        show Along _ _ _ (renamedSymbol? src dst s >>= _) _
        obtain ⟨other, eq⟩ | ⟨d, hd, eq⟩ := renamedSymbol?_cases length s
        · rw [eq]
          exact mapped (old s hty.1 other)
        · rw [eq]
          refine (parts.of_ok le ready (hty.2.1 pre List.mem_cons_self)).bind fun pre' t1 _ hpre' =>
            ?_
          exact .pure fun _ h2 => nested_lasts h2 (hpre'.binder (hdst d hd) rfl nofun)
      | ref pre s args =>
        show Along _ _ _ (renamedSymbol? src dst s >>= _) _
        obtain ⟨other, eq⟩ | ⟨d, hd, eq⟩ := renamedSymbol?_cases length s
        · rw [eq]
          exact mapped (old s hty.1 other)
        · rw [eq]
          refine (parts.of_ok le ready (hty.2.1 pre List.mem_cons_self)).bind
            fun pre' t1 h1 hpre' => ?_
          refine (Along.mapM nested_lasts fun arg mem =>
            (parts.of_ok le ready (hty.2.1 arg (List.mem_cons_of_mem _ mem))).later h1).bind
            fun args' t2 h2 ⟨_, hargs'⟩ => .pure fun _ h3 => nested_lasts h3 ?_
          exact ⟨hdst d hd, List.forall_mem_cons.2 ⟨nested_lasts h2 hpre', hargs'⟩, nofun⟩
      | var v => exact mapped (vars v hty.1)
      | _ => exact mapped trivial
    · intro N cls cls' named avoid n t ty ready hty
      have names : N.Has ty := hty.has_of_reaches (.refl ty)
      unfold substThis
      refine .ite (fun _ => .pure fun _ h => nested_lasts h hty) fun _ =>
        .ite (fun _ => .pure fun _ _ => ?_) fun _ => ?_
      · obtain ⟨n, rfl⟩ : ∃ m, n = m + 1 := ⟨n - 1, by have := hty.pos; omega⟩
        exact ⟨named, nofun, nofun⟩
      · exact (ih.2 named).mapOver keeps ready hty names

theorem Rebinding.at_keeps (N : Vocabulary) (k : Nat) : (Rebinding.at k).Keeps N k :=
  ⟨fun length hdst => (subst_substitutes k).1 length hdst (fun _ h _ => h) fun _ =>
    id, fun _ => (subst_substitutes k).2⟩

end Maps

end Conformance

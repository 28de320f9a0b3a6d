import Conformance.Intern.NameStore
import Mathlib.Algebra.Group.Nat.Defs
import Mathlib.Data.List.Induction

/-! # Names and their handles

Looking a name up and reading a handle are inverse, since no name stands at two addresses and each
stands in its own shard. So a name that was entered has one handle, which reads back as the name
whatever is entered later. -/

namespace Conformance

namespace Pool

variable {α : Type} [DecidableEq α] [Hashable α] {n : Nat}
  {p : Pool α n} {i : Fin n} {x : α} {a : Address n}

theorem shards_push (p : Pool α n) (i : Fin n) (x : α)
    (new : (p.shards.get i).places[x]? = none) (j : Fin n) : (p.push i x new).shards.get
    j = if i = j then (p.shards.get i).push x new else p.shards.get j := by
  show (p.shards.set i ((p.shards.get i).push x new))[j.val] = _
  rw [Vector.getElem_set]
  simp only [Fin.val_inj]
  rfl

theorem get?_push (p : Pool α n) (i : Fin n) (x : α)
    (new : (p.shards.get i).places[x]? = none) (a : Address n) : (p.push i x new).get?
    a = if a = ⟨i, (p.shards.get i).items.size⟩ then some x else p.get? a := by
  obtain ⟨j, place⟩ := a
  simp only [get?, shards_push, Address.mk.injEq]
  by_cases same : i = j
  · subst same
    simp [Shard.push, Array.getElem?_push]
  · simp [same, Ne.symm same]

theorem get?_size (p : Pool α n) (i : Fin n) : p.get? ⟨i, (p.shards.get i).items.size⟩ = none :=
  Array.getElem?_eq_none (Nat.le_refl _)

/-- Looking a value up in a shard and reading an address there are inverse. -/
theorem find?_iff : p.find? i x = some a ↔ a.shard = i ∧ p.get? a = some x := by
  obtain ⟨j, place⟩ := a
  simp only [find?, get?, Option.map_eq_some_iff, Shard.inverse, Address.mk.injEq]
  constructor
  · rintro ⟨k, read, rfl, rfl⟩
    exact ⟨rfl, read⟩
  · rintro ⟨rfl, read⟩
    exact ⟨place, read, rfl, rfl⟩

/-- What entering a value can lead to. -/
theorem intern_cases (p : Pool α n) (limit : Nat) (i : Fin n) (x : α) :
    (∃ a, p.find? i x = some a ∧ p.intern limit i x = (some a, p)) ∨
    (limit < (p.shards.get i).items.size ∧ p.intern limit i x = (none, p)) ∨
    ∃ new, p.intern limit i x = (some ⟨i, (p.shards.get i).items.size⟩, p.push i x new) := by
  unfold intern
  split
  next place known => exact .inl ⟨⟨i, place⟩, by rw [find?, known]; rfl, rfl⟩
  next new =>
    by_cases full : limit < (p.shards.get i).items.size
    · exact .inr (.inl ⟨full, if_pos full⟩)
    · exact .inr (.inr ⟨new, if_neg full⟩)

end Pool

namespace NameHandle

@[simp] theorem ofAddress_address (h : NameHandle) : ofAddress h.address = h :=
  congrArg NameHandle.mk (show h.val / 16 * 16 + h.val % 16 = h.val by omega)

@[simp] theorem address_ofAddress (a : Address 16) : (ofAddress a).address = a := by
  obtain ⟨⟨shard, lt⟩, place⟩ := a
  simp only [ofAddress, address, Address.mk.injEq, Fin.mk.injEq]
  omega

end NameHandle

namespace NameStore

variable {shardOf : String → Fin 16} {st : NameStore}
  {ns : List String} {s x : String} {h : NameHandle}

/-- The names in `ns` and no others stand in the store, each once and in its own shard, but for the
empty name, which stands first. -/
structure Sorted (shardOf : String → Fin 16) (ns : List String) (st : NameStore) : Prop where
  blank : ∀ h, st.resolve? h = some "" ↔ h = .empty
  placed : ∀ h x, st.resolve? h = some x → x ≠ "" → h.address.shard = shardOf x
  names : ∀ x, (∃ h, st.resolve? h = some x) ↔ x ∈ ns

/-- No shard is full. -/
def HasRoom (st : NameStore) : Prop := ∀ i, (st.pool.shards.get i).items.size < 2 ^ 28

theorem Sorted.lookup?_iff (hst : st.Sorted shardOf ns) :
    st.lookup? shardOf s = some h ↔ st.resolve? h = some s := by
  unfold lookup?
  split
  next blank =>
    obtain rfl : s = "" := String.isEmpty_iff.1 blank
    rw [Option.some.injEq, hst.blank, eq_comm]
  next named =>
    have named : s ≠ "" := fun eq => named (String.isEmpty_iff.2 eq)
    simp only [Option.map_eq_some_iff, Pool.find?_iff]
    constructor
    · rintro ⟨a, ⟨-, read⟩, rfl⟩
      rwa [resolve?, NameHandle.address_ofAddress]
    · exact fun read => ⟨h.address, ⟨hst.placed h s read named, read⟩, h.ofAddress_address⟩

theorem Sorted.once {h' : NameHandle} (hst : st.Sorted shardOf ns) (read : st.resolve? h = some x)
    (read' : st.resolve? h' = some x) : h = h' :=
  Option.some.inj ((hst.lookup?_iff.2 read).symm.trans (hst.lookup?_iff.2 read'))

/-! ## Entering a name -/

/-- What entering a name can lead to. -/
inductive Interning (shardOf : String → Fin 16) (st : NameStore)
    (s : String) : NameHandle × NameStore → Prop where
  | known {h : NameHandle} (found : st.lookup? shardOf s = some h) : Interning shardOf st s (h, st)
  | full (size : 2 ^ 28 ≤ (st.pool.shards.get (shardOf s)).items.size) :
    Interning shardOf st s (.empty, st)
  | new (named : s ≠ "") (fresh : (st.pool.shards.get (shardOf s)).places[s]? = none) :
    Interning shardOf st s (.ofAddress ⟨shardOf s, (st.pool.shards.get (shardOf s)).items.size⟩,
    ⟨st.pool.push (shardOf s) s fresh⟩)

theorem interning (shardOf : String → Fin 16) (st : NameStore)
    (s : String) : Interning shardOf st s (st.intern shardOf s) := by
  unfold intern
  split
  next blank => exact .known (if_pos blank)
  next named =>
    obtain ⟨a, found, eq⟩ | ⟨full, eq⟩ | ⟨fresh, eq⟩ :=
      st.pool.intern_cases shardLimit (shardOf s) s
    · rw [eq]
      exact .known (by rw [lookup?, if_neg named, found]; rfl)
    · rw [eq]
      exact .full full
    · rw [eq]
      exact .new (fun blank => named (String.isEmpty_iff.2 blank)) fresh

namespace Interning

variable {answer : NameHandle × NameStore} (step : Interning shardOf st s answer)
include step

theorem size (i : Fin 16) : (st.pool.shards.get i).items.size ≤
    (answer.2.pool.shards.get i).items.size ∧ (answer.2.pool.shards.get i).items.size ≤
    (st.pool.shards.get i).items.size + 1 := by
  cases step with
  | known | full => exact ⟨Nat.le_refl _, Nat.le_succ _⟩
  | new =>
    rw [Pool.shards_push]
    split
    next same => simp [← same, Shard.push]
    next => exact ⟨Nat.le_refl _, Nat.le_succ _⟩

theorem room (room : answer.2.HasRoom) : st.HasRoom :=
    fun i => Nat.lt_of_le_of_lt (step.size i).1 (room i)

variable (hst : st.Sorted shardOf ns) (hroom : answer.2.HasRoom)
include hst hroom

/-- The name stands at its handle, and the others where they stood. -/
theorem resolve?_iff : answer.2.resolve? h = some x ↔
    st.resolve? h = some x ∨ x = s ∧ h = answer.1 := by
  cases step with
  | known found =>
    refine ⟨.inl, ?_⟩
    rintro (read | ⟨rfl, rfl⟩)
    · exact read
    · exact hst.lookup?_iff.1 found
  | full size => exact absurd (hroom _) (Nat.not_lt.2 size)
  | new =>
    rw [resolve?, Pool.get?_push]
    split
    next eq =>
      have place : h = .ofAddress ⟨shardOf s,
        (st.pool.shards.get (shardOf s)).items.size⟩ := by rw [← eq, NameHandle.ofAddress_address]
      simp [resolve?, place, Pool.get?_size, eq_comm]
    next other =>
      simp [resolve?, show h ≠ _ from fun eq => other (by rw [eq, NameHandle.address_ofAddress])]

theorem sorted : answer.2.Sorted shardOf (s :: ns) := by
  have reads : ∀ {h x}, answer.2.resolve? h = some x ↔ _ := step.resolve?_iff hst hroom
  have names : ∀ x, (∃ h, answer.2.resolve? h = some x) ↔ x ∈ s :: ns := fun x => by
    simp [reads, exists_or, hst.names, or_comm]
  cases step with
  | known | full => exact { hst with names }
  | new named =>
    refine ⟨fun h => ?_, fun h x read named => ?_, names⟩
    · rw [reads, hst.blank]
      exact or_iff_left fun blank => named blank.1.symm
    · obtain read | ⟨rfl, rfl⟩ := reads.1 read
      · exact hst.placed h x read named
      · rw [NameHandle.address_ofAddress]

end Interning

/-- A name that is there is entered again at the handle that it has. -/
theorem Sorted.intern_eq (hst : st.Sorted shardOf ns)
    (room : st.HasRoom) (read : st.resolve? h = some s) : (st.intern shardOf s).1 = h := by
  have found := hst.lookup?_iff.2 read
  generalize eq : st.intern shardOf s = answer
  cases eq ▸ interning shardOf st s with
  | known found' => exact Option.some.inj (found'.symm.trans found)
  | full size => exact absurd (room _) (Nat.not_lt.2 size)
  | new named fresh =>
    rw [lookup?, if_neg fun blank => named (String.isEmpty_iff.1 blank), Pool.find?, fresh] at found
    cases found

/-! ## Names entered one after another -/

/-- Where calls on a new store lead, beside the names that were entered with the handles that they
were given. -/
inductive Reached (shardOf : String → Fin 16) : NameStore → List (String × NameHandle) → Prop where
  | new : Reached shardOf (initial shardOf) []
  | intern {st : NameStore} {calls : List (String × NameHandle)} (h : Reached shardOf st calls)
    (s : String) : Reached shardOf (st.intern shardOf s).2 ((s, (st.intern shardOf s).1) :: calls)

theorem sorted_blank (shardOf : String → Fin 16) : blank.Sorted shardOf [""] := by
  have reads : ∀ {h x}, blank.resolve? h = some x ↔ x = "" ∧ h = .empty := by
    intro h x
    have none : (Pool.empty : Pool String 16).get?
      h.address = none := by simp [Pool.get?, Pool.empty, Shard.empty, Vector.get]
    have first : h.address = ⟨0, ((Pool.empty : Pool String 16).shards.get 0).items.size⟩ ↔
      h = .empty :=
      ⟨fun eq => by rw [← NameHandle.ofAddress_address h, eq]; rfl, fun eq => by rw [eq]; rfl⟩
    rw [resolve?, blank, Pool.get?_push, none]
    simp only [first]
    split
    next eq => simp [eq, eq_comm]
    next other => simp [other]
  exact ⟨fun h => by simp [reads], fun h x read named =>
    absurd (reads.1 read).1 named, fun x => by simp [reads]⟩

theorem Sorted.foldl {l : List String} (hst : st.Sorted shardOf ns)
    (room : (l.foldl (fun st s => (intern shardOf st s).2) st).HasRoom) :
    (l.foldl (fun st s => (intern shardOf st s).2) st).Sorted shardOf (l.reverse ++ ns) := by
  induction l using List.reverseRec with
  | nil => exact hst
  | append_singleton l s ih =>
    rw [List.foldl_append] at room ⊢
    rw [List.reverse_append]
    have step := interning shardOf (l.foldl (fun st s => (intern shardOf st s).2) st) s
    exact step.sorted (ih (step.room room)) room

theorem Reached.sorted {calls : List (String × NameHandle)} (h : Reached shardOf st calls)
    (room : st.HasRoom) : st.Sorted shardOf (calls.map (·.1) ++ (wellKnown.reverse ++ [""])) ∧
    ∀ c ∈ calls, st.resolve? c.2 = some c.1 := by
  induction h with
  | new =>
    unfold initial at room ⊢
    exact ⟨(sorted_blank shardOf).foldl room, nofun⟩
  | @intern st calls _ s ih =>
    have step := interning shardOf st s
    obtain ⟨sorted, given⟩ := ih (step.room room)
    have reads : ∀ {h x}, (st.intern shardOf s).2.resolve? h = some x ↔ _ :=
      step.resolve?_iff sorted room
    exact ⟨step.sorted sorted room, List.forall_mem_cons.2
      ⟨reads.2 (.inr ⟨rfl, rfl⟩), fun c mem => reads.2 (.inl (given c mem))⟩⟩

theorem size_foldl (shardOf : String → Fin 16) (l : List String) (st : NameStore) (i : Fin 16) :
    ((l.foldl (fun st s => (intern shardOf st s).2) st).pool.shards.get i).items.size ≤
      (st.pool.shards.get i).items.size + l.length := by
  induction l generalizing st with
  | nil => exact Nat.le_refl _
  | cons s l ih =>
    have step := ((interning shardOf st s).size i).2
    have rest := ih (st.intern shardOf s).2
    rw [List.foldl_cons, List.length_cons]
    omega

/-- Few calls leave room. -/
theorem Reached.size {calls : List (String × NameHandle)} (h : Reached shardOf st calls)
    (i : Fin 16) : (st.pool.shards.get i).items.size ≤ 1 + wellKnown.length + calls.length := by
  induction h with
  | new =>
    have blank : (blank.pool.shards.get i).items.size ≤ 1 := by
      rw [blank, Pool.shards_push]
      split <;> simp [Pool.empty, Shard.empty, Shard.push, Vector.get]
    have names := size_foldl shardOf wellKnown .blank i
    unfold initial
    omega
  | @intern st calls _ s ih =>
    have step := ((interning shardOf st s).size i).2
    rw [List.length_cons]
    omega

/-- Names and handles correspond to each other in a store that names were entered into while no
shard was full: a name keeps the handle that it was given, no other name has it, and handle 0 is
that of the empty name. The names that were entered are found, and no others, and a handle that was
not given reads as the empty name. -/
theorem names_correspond_to_handles {calls : List (String × NameHandle)}
    (h : Reached shardOf st calls) (room : st.HasRoom) :
    (∀ c ∈ calls, st.resolve c.2 = c.1) ∧ (∀ c ∈ calls, ∀ d ∈ calls, c.2 = d.2 ↔ c.1 = d.1) ∧
    (∀ c ∈ calls, c.2 = .empty ↔ c.1 = "") ∧ (∀ s h, st.lookup? shardOf s = some h ↔
      (s = "" ∨ s ∈ wellKnown ∨ s ∈ calls.map (·.1)) ∧ h = (st.intern shardOf s).1) ∧
    ∀ h, (∀ s, s = "" ∨ s ∈ wellKnown ∨ s ∈ calls.map (·.1) → h ≠ (st.intern shardOf s).1) →
      st.resolve h = "" := by
  obtain ⟨sorted, given⟩ := h.sorted room
  have named : ∀ {x}, (∃ h, st.resolve? h = some x) ↔
    x = "" ∨ x ∈ wellKnown ∨ x ∈ calls.map (·.1) := by
    intro x
    simp only [sorted.names, List.mem_append, List.mem_reverse, List.mem_singleton]
    tauto
  have same : ∀ {h h' x y}, st.resolve? h = some x → st.resolve? h' = some y → (h = h' ↔ x = y) :=
    fun read read' =>
    ⟨fun eq => Option.some.inj (read.symm.trans (eq ▸ read')), fun eq =>
      sorted.once read (eq ▸ read')⟩
  refine ⟨fun c mem => by rw [resolve, given c mem]; rfl, fun c mem d mem' =>
    same (given c mem) (given d mem'), fun c mem =>
    same (given c mem) ((sorted.blank _).2 rfl), fun s h => ?_, fun h unknown => ?_⟩
  · rw [sorted.lookup?_iff, ← named]
    constructor
    · exact fun read => ⟨⟨h, read⟩, (sorted.intern_eq room read).symm⟩
    · rintro ⟨⟨h', read⟩, rfl⟩
      exact (sorted.intern_eq room read).symm ▸ read
  · cases read : st.resolve? h with
    | none => rw [resolve, read]; rfl
    | some x => exact absurd (sorted.intern_eq room read).symm (unknown x (named.1 ⟨h, read⟩))

/-- Two names share a shard with the well-known ones, and each keeps a handle of its own. -/
theorem names_of_one_shard_correspond_to_handles :
    ∃ st calls, Reached (fun _ => 7) st calls ∧ st.HasRoom ∧ calls.map (·.1) = ["Cell", "Box"] ∧
    (∀ c ∈ calls, st.resolve c.2 = c.1) ∧ ∀ c ∈ calls, ∀ d ∈ calls, c.2 = d.2 ↔ c.1 = d.1 := by
  let shardOf : String → Fin 16 := fun _ => 7
  have reached := ((@Reached.new shardOf).intern "Box").intern "Cell"
  have room : (((initial shardOf).intern shardOf "Box").2.intern shardOf "Cell").2.HasRoom := by
    intro i
    have size := reached.size i
    simp only [wellKnown, List.length_cons, List.length_nil] at size
    omega
  obtain ⟨reads, distinct, -⟩ := names_correspond_to_handles reached room
  exact ⟨_, _, reached, room, rfl, reads, distinct⟩

end NameStore

end Conformance

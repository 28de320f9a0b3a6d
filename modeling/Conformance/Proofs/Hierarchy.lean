import Conformance.Proofs.Linearizations

/-! # A linearization orders the classes above a class

The list is built from the back: the superclass's linearization comes last, and each further parent
puts in front what it adds. What is there is closed under parents at every stage, so nothing that is
put in front can be a base class of what follows. Only the part of the hierarchy above the class
matters: it has no cycle there, and no chain that is too long. -/

namespace Conformance

variable {c d : SymbolId}

namespace SymbolTable

variable (t : SymbolTable)

/-- `d` is the class of a declared parent of `c`. -/
def DirectBase (c d : SymbolId) : Prop := t.Inherits c d ∧ d.isPresent = true

/-- `d` is reached from `c` through parents. -/
def IsBase (c d : SymbolId) : Prop := Relation.ReflTransGen t.DirectBase c d

/-- `d` is reached from `c` through parents, in at least one step. -/
def IsProperBase (c d : SymbolId) : Prop := Relation.TransGen t.DirectBase c d

/-- Chains of parents from `c` on have at most `n` classes. A cycle would give chains of every
length. -/
def ChainsWithin (n : Nat) (c : SymbolId) : Prop :=
  ∀ cs, List.IsChain t.DirectBase (c :: cs) → (c :: cs).length ≤ n

/-- The class of the first parent that has one. -/
def firstParentClass? (c : SymbolId) : Option SymbolId :=
  ((t.get c).parents.map t.parentClass).find? fun d => d.isPresent && (t.get d).isClass

/-- `cs` lists `c` and its base classes, each before its own, and ends with the superclass's
list. -/
structure IsLinearization (c : SymbolId) (cs : List SymbolId) : Prop where
  head : cs.head? = some c
  nodup : cs.Nodup
  complete (d : SymbolId) : d ∈ cs ↔ t.IsBase c d
  ordered {d e : SymbolId} : d ∈ cs → t.IsProperBase d e → cs.idxOf d < cs.idxOf e
  superclass {d : SymbolId} : t.firstParentClass? c = some d →
    ∃ ds t', SymM.baseClasses d t = .ok ds t' ∧ ds <:+ cs

variable {t}

theorem directBase_iff (hc : (t.get c).isClass = true) : t.DirectBase c d ↔
    d ∈ (t.get c).parents.map t.parentClass ∧ d.isPresent = true ∧ (t.get d).isClass = true := by
  unfold DirectBase Inherits
  tauto

theorem DirectBase.isClass (h : t.DirectBase c d) : (t.get d).isClass = true := h.1.2.2

namespace ChainsWithin

variable {n : Nat} {c d : SymbolId}

theorem pos (h : t.ChainsWithin n c) : 0 < n := h [] (.singleton c)

theorem mono {m : Nat} (h : t.ChainsWithin n c) (le : n ≤ m) : t.ChainsWithin m c :=
  fun cs chain => Nat.le_trans (h cs chain) le

theorem step (h : t.ChainsWithin (n + 1) c) (hd : t.DirectBase c d) : t.ChainsWithin n d := by
  intro cs chain
  have longer := h (d :: cs) (.cons_cons hd chain)
  simpa using longer

theorem of_isBase (h : t.ChainsWithin n c) (base : t.IsBase c d) : t.ChainsWithin n d := by
  induction base with
  | refl => exact h
  | tail _ step ih => exact (ih.mono (Nat.le_succ n)).step step

/-- No class is its own proper base: a cycle could be gone round until it exceeds the bound. -/
theorem not_isBase (h : t.ChainsWithin n c) (hd : t.DirectBase c d) : ¬ t.IsBase d c := by
  induction n generalizing c d with
  | zero => exact absurd h.pos (Nat.lt_irrefl 0)
  | succ n ih =>
    intro back
    obtain rfl | ⟨e, he, rest⟩ := back.cases_head
    · exact ih (h.step hd) hd .refl
    · exact ih (h.step hd) he (rest.tail hd)

theorem ne_of_isProperBase (h : t.ChainsWithin n c) (base : t.IsProperBase c d) : c ≠ d := by
  rintro rfl
  obtain ⟨e, step, back⟩ := Relation.TransGen.head'_iff.1 base
  exact h.not_isBase step back

end ChainsWithin

/-- Where classes are declared after their parents, a chain has no more of them than the table has
entries. -/
theorem chainsWithin_of_descending (declared : c.val < t.size)
    (down : ∀ i < t.size, ∀ p ∈ (t.get ⟨i⟩).parents, (t.parentClass p).val < i) :
    t.ChainsWithin (c.val + 1) c := by
  intro cs chain
  induction cs generalizing c with
  | nil => exact Nat.le_add_left 1 c.val
  | cons d cs ih =>
    obtain ⟨step, rest⟩ := List.isChain_cons_cons.1 chain
    have isClass : (t.get c).isClass = true := step.1.1
    obtain ⟨ty, parent, rfl⟩ := List.mem_map.1 ((directBase_iff isClass).1 step).1
    have lower := down c.val declared ty parent
    have shorter := ih (Nat.lt_trans lower declared) rest
    simp only [List.length_cons] at shorter ⊢
    omega

/-! ## Closed lists in order -/

/-- With each class the list holds its parents' classes, and no class stands before one that it is a
base of. -/
structure InOrder (t : SymbolTable) (cs : List SymbolId) : Prop where
  closed {c d : SymbolId} : c ∈ cs → t.DirectBase c d → d ∈ cs
  sorted : cs.Pairwise fun c d => ¬ t.IsBase d c

namespace InOrder

variable {cs : List SymbolId}

theorem nil : t.InOrder [] := ⟨fun mem => absurd mem List.not_mem_nil, .nil⟩

theorem mem_of_isBase (h : t.InOrder cs) (hc : c ∈ cs) (base : t.IsBase c d) : d ∈ cs := by
  induction base with
  | refl => exact hc
  | tail _ step ih => exact h.closed ih step

theorem mixIn {added : List SymbolId} (h : t.InOrder cs)
    (hadded : t.InOrder added) : t.InOrder (SymM.mixIn cs added) := by
  have mem : ∀ {c}, c ∈ SymM.mixIn cs added ↔ c ∈ cs ∨ c ∈ added :=
    fun {c} => SymM.mem_mixIn cs added c
  refine ⟨fun {c d} hc step => ?_, ?_⟩
  · rw [mem] at hc ⊢
    exact hc.imp (h.closed · step) (hadded.closed · step)
  · refine List.pairwise_append.2 ⟨hadded.sorted.filter _, h.sorted, fun c hc d hd base => ?_⟩
    -- what is new is no base of what was there
    have new : c ∉ cs := by simpa using (List.mem_filter.1 hc).2
    exact new (h.mem_of_isBase hd base)

theorem cons (h : t.InOrder cs) (parents : ∀ d, t.DirectBase c d → d ∈ cs)
    (first : ∀ d ∈ cs, ¬ t.IsBase d c) : t.InOrder (c :: cs) := by
  refine ⟨fun {e d} he step => ?_, List.pairwise_cons.2 ⟨first, h.sorted⟩⟩
  obtain rfl | he := List.mem_cons.1 he
  · exact List.mem_cons_of_mem _ (parents d step)
  · exact List.mem_cons_of_mem _ (h.closed he step)

theorem nodup (h : t.InOrder cs) : cs.Nodup := by
  refine h.sorted.imp fun {c d} apart same => ?_
  subst same
  exact apart .refl

theorem idxOf_lt (h : t.InOrder cs) (hc : c ∈ cs) (base : t.IsProperBase c d) (distinct : c ≠ d) :
    cs.idxOf c < cs.idxOf d := by
  have hd : d ∈ cs := h.mem_of_isBase hc base.to_reflTransGen
  have ic := List.idxOf_lt_length_of_mem hc
  have id := List.idxOf_lt_length_of_mem hd
  refine Nat.lt_of_not_le fun le => ?_
  obtain same | before := Nat.eq_or_lt_of_le le
  · exact distinct ((List.idxOf_inj hc).1 same.symm)
  · have apart := List.pairwise_iff_getElem.1 h.sorted _ _ id ic before
    rw [List.getElem_idxOf, List.getElem_idxOf] at apart
    exact apart base.to_reflTransGen

end InOrder

/-! ## What parents contribute -/

theorem mixed_inOrder {lineage : SymbolId → List SymbolId}
    {parents : List SymbolId} (h : ∀ p ∈ parents, p.isPresent = true → t.InOrder (lineage p)) :
    t.InOrder (mixed lineage parents) := by
  have further : ∀ (css : List (List SymbolId)) tail, (∀ cs ∈ css, t.InOrder cs) → t.InOrder tail →
      t.InOrder (css.foldl SymM.mixIn tail) := by
    intro css
    induction css with
    | nil => exact fun tail _ htail => htail
    | cons cs css ih =>
      intro tail hcss htail
      exact ih _ (fun cs' hcs' => hcss cs' (List.mem_cons_of_mem _ hcs'))
        (htail.mixIn (hcss cs List.mem_cons_self))
  rw [mixed_eq]
  refine further _ _ (fun cs hcs => ?_) .nil
  obtain ⟨p, hp, rfl⟩ := List.mem_map.1 hcs
  exact h p (List.mem_filter.1 hp).1 (List.mem_filter.1 hp).2

/-- The list of the first parent that has one stays at the end. -/
theorem suffix_mixed {lineage : SymbolId → List SymbolId} {parents : List SymbolId}
    {isClass : SymbolId → Bool} (empty : ∀ p, isClass p = false → lineage p = [])
    (first : parents.find? (fun p => p.isPresent && isClass p) = some d) :
    lineage d <:+ mixed lineage parents := by
  have kept : ∀ (css : List (List SymbolId)) tail, tail <:+ css.foldl SymM.mixIn tail := by
    intro css
    induction css with
    | nil => exact fun tail => List.suffix_rfl
    | cons cs css ih => exact fun tail => (List.suffix_append _ tail).trans (ih _)
  rw [mixed_eq]
  -- parents without a class add nothing to the empty list
  induction parents with
  | nil => cases first
  | cons m ms ih =>
    rw [List.find?_cons] at first
    cases present : m.isPresent with
    | false =>
      rw [List.filter_cons_of_neg (by simp [present])]
      exact ih (by simpa [present] using first)
    | true =>
      rw [List.filter_cons_of_pos present, List.map_cons, List.foldl_cons, SymM.mixIn_nil]
      cases hm : isClass m with
      | false =>
        rw [empty m hm]
        exact ih (by simpa [present, hm] using first)
      | true =>
        obtain rfl : m = d := by simpa [present, hm] using first
        exact kept _ _

/-! ## The list of a class -/

/-- The linearization of `s`, computed afresh through at most `n` classes. -/
def linearUpTo (t : SymbolTable) (n : Nat) (s : SymbolId) : List SymbolId :=
    t.cleared.lineageUpTo n s

section Lists

variable {n : Nat} {s : SymbolId}

theorem linearUpTo_of_not_class (hs : (t.get s).isClass = false) : t.linearUpTo n s = [] := by
  cases n with
  | zero => rfl
  | succ n =>
    rw [linearUpTo, lineageUpTo_cleared, hs]
    rfl

theorem linearUpTo_of_class (hs : (t.get s).isClass = true) : t.linearUpTo
    (n + 1) s = headed s (mixed (t.linearUpTo n) ((t.get s).parents.map t.parentClass)) := by
  rw [linearUpTo, lineageUpTo_cleared, if_pos hs]
  rfl

/-- With a level for each class of a chain, more levels change nothing. -/
theorem linearUpTo_eq {m : Nat} (within : (t.get s).isClass = true → t.ChainsWithin n s)
    (le : n ≤ m) : t.linearUpTo m s = t.linearUpTo n s := by
  induction n generalizing m s with
  | zero =>
    have notClass : (t.get s).isClass = false := Bool.eq_false_iff.2 fun hs =>
      absurd (within hs).pos (Nat.lt_irrefl 0)
    rw [linearUpTo_of_not_class notClass, linearUpTo_of_not_class notClass]
  | succ n ih =>
    cases hs : (t.get s).isClass with
    | false => rw [linearUpTo_of_not_class hs, linearUpTo_of_not_class hs]
    | true =>
      obtain ⟨m, rfl⟩ : ∃ k, m = k + 1 := ⟨m - 1, by omega⟩
      rw [linearUpTo_of_class hs, linearUpTo_of_class hs]
      congr 1
      refine mixed_congr fun p hp present => ih (fun hpc => ?_) (by omega)
      exact (within hs).step ((directBase_iff hs).2 ⟨hp, present, hpc⟩)

/-- A class, then what its parents contribute; the class itself is not among that. -/
theorem linearUpTo_spec (hs : (t.get s).isClass = true) (within : t.ChainsWithin n s) :
    t.InOrder (t.linearUpTo n s) ∧ (∀ d, d ∈ t.linearUpTo n s ↔ t.IsBase s d) ∧
      ∃ tail, t.linearUpTo n s = s :: tail ∧ tail = mixed (t.linearUpTo (n - 1))
        ((t.get s).parents.map t.parentClass) := by
  induction n generalizing s with
  | zero => exact absurd within.pos (Nat.lt_irrefl 0)
  | succ n ih =>
    let parents := (t.get s).parents.map t.parentClass
    let tail := mixed (t.linearUpTo n) parents
    have contributed : ∀ d, d ∈ tail ↔ ∃ p, t.DirectBase s p ∧ t.IsBase p d := by
      intro d
      rw [mem_mixed_iff]
      constructor
      · rintro ⟨p, hp, present, hd⟩
        cases hpc : (t.get p).isClass with
        | false => rw [linearUpTo_of_not_class hpc] at hd; cases hd
        | true =>
          have step := (directBase_iff hs).2 ⟨hp, present, hpc⟩
          exact ⟨p, step, ((ih hpc (within.step step)).2.1 d).1 hd⟩
      · rintro ⟨p, step, base⟩
        obtain ⟨hp, present, hpc⟩ := (directBase_iff hs).1 step
        exact ⟨p, hp, present, ((ih hpc (within.step step)).2.1 d).2 base⟩
    have inOrder : t.InOrder tail := by
      refine mixed_inOrder fun p hp present => ?_
      cases hpc : (t.get p).isClass with
      | false => rw [linearUpTo_of_not_class hpc]; exact .nil
      | true => exact (ih hpc (within.step ((directBase_iff hs).2 ⟨hp, present, hpc⟩))).1
    have acyclic : ∀ d ∈ tail, ¬ t.IsBase d s := by
      intro d hd back
      obtain ⟨p, step, base⟩ := (contributed d).1 hd
      exact within.not_isBase step (base.trans back)
    have list : t.linearUpTo (n + 1) s = s :: tail := by
      have absent : ¬ tail.contains s = true := by simpa using fun hd => acyclic s hd .refl
      rw [linearUpTo_of_class hs, headed, if_neg absent]
    refine ⟨?_, fun d => ?_, tail, list, rfl⟩
    · rw [list]
      exact inOrder.cons (fun d step => (contributed d).2 ⟨d, step, .refl⟩) acyclic
    · rw [list, List.mem_cons, contributed, IsBase, Relation.ReflTransGen.cases_head_iff, eq_comm]
      rfl

end Lists

/-! ## Runs -/

/-- `t'` has the declarations of `t`, and what it remembers is computed from them. -/
structure Computed (t t' : SymbolTable) : Prop where
  records : t'.records = t.records
  remembered {s : SymbolId} {cs : List SymbolId} :
    t'.linearization? s = some cs → cs = t.linearUpTo Limits.linearizationDepth s

namespace Computed

variable {t' : SymbolTable}

theorem of_forgotten (h : t.linearized = []) : t.Computed t := by
  refine ⟨rfl, fun {s cs} found => ?_⟩
  rw [linearization?, h] at found
  cases found

theorem get_eq (h : t.Computed t') (s : SymbolId) : t'.get s = t.get s := get_congr h.records s

theorem parentClass_eq (h : t.Computed t') : t'.parentClass = t.parentClass :=
    parentClass_of_records h.records

theorem remember (h : t.Computed t') (s : SymbolId) :
    t.Computed (t'.rememberLinearization s (t.linearUpTo Limits.linearizationDepth s)) := by
  refine ⟨h.records, fun {c cs} found => ?_⟩
  rw [linearization?_remember] at found
  split at found
  next same => rw [same, Option.some.inj found]
  next => exact h.remembered found

end Computed

end SymbolTable

open SymbolTable

namespace SymM

variable {t : SymbolTable}

/-- With a level for each class of a chain, and no class of `active` above `s`, the list of `s` is
computed. -/
theorem linearize_gives {n : Nat} {active : List SymbolId}
    {s : SymbolId} (levels : n ≤ Limits.linearizationDepth)
    (hs : (t.get s).isClass = true → t.ChainsWithin n s ∧ ∀ c ∈ active, ¬ t.IsBase s c) :
    Gives t.Computed (linearize n active s) (t.linearUpTo Limits.linearizationDepth s) := by
  refine gives_iff.2 (linearize_attains (V := fun n active s => n ≤ Limits.linearizationDepth ∧
      ((t.get s).isClass = true → t.ChainsWithin n s ∧ ∀ c ∈ active, ¬ t.IsBase s c))
    (R := fun s cs => cs = t.linearUpTo Limits.linearizationDepth s)
      (fun ht' _ found => ht'.remembered found) ?_ ?_ ⟨levels, hs⟩)
  · intro t' n active s ht' ⟨_, hs⟩ _ stop
    rw [ht'.get_eq] at stop
    refine (linearUpTo_of_not_class ?_).symm
    rw [← Bool.not_eq_true]
    intro isClass
    obtain ⟨within, above⟩ := hs isClass
    obtain rfl | mem := stop isClass
    · exact absurd within.pos (Nat.lt_irrefl 0)
    · exact above s mem .refl
  · intro t' n active s ht' ⟨levels, hs⟩ _ isClass _
    rw [ht'.get_eq] at isClass
    rw [ht'.parentClass_eq, ht'.get_eq]
    obtain ⟨within, above⟩ := hs isClass
    have room : n ≤ Limits.linearizationDepth := Nat.le_of_succ_le levels
    have step : ∀ p ∈ (t.get s).parents.map t.parentClass, p.isPresent = true →
      (t.get p).isClass = true → t.DirectBase s p :=
      fun p hp present hpc => (directBase_iff isClass).2 ⟨hp, present, hpc⟩
    refine ⟨fun p hp present => ⟨room, fun hpc =>
      ⟨within.step (step p hp present hpc), fun c hc base => ?_⟩⟩, fun css hcss => ?_⟩
    · obtain rfl | hc := List.mem_cons.1 hc
      · exact within.not_isBase (step p hp present hpc) base
      · exact above c hc (.head (step p hp present hpc) base)
    · have full : headed s (css.foldl mixIn []) = t.linearUpTo Limits.linearizationDepth s := by
        rw [linearUpTo_eq (fun _ => within) levels,
          linearUpTo_of_class isClass, eq_map_of_forall₂ hcss, ← mixed_eq]
        refine congrArg (headed s) (mixed_congr fun p hp present => ?_)
        exact linearUpTo_eq (fun hpc => within.step (step p hp present hpc)) room
      exact ⟨full, fun t1 ht1 => full ▸ ht1.remember s⟩

theorem baseClasses_gives {s : SymbolId}
    (within : (t.get s).isClass = true → t.ChainsWithin Limits.linearizationDepth s) :
    Gives t.Computed (baseClasses s) (t.linearUpTo Limits.linearizationDepth s) :=
  linearize_gives (Nat.le_refl _) fun hs => ⟨within hs, fun _ mem => nomatch mem⟩

/-- Asked with nothing remembered, the base classes of a class are a linearization, if the hierarchy
above it has no cycle and no chain of more than 256 classes. -/
theorem baseClasses_isLinearization {c : SymbolId}
    (hc : (t.get c).isClass = true) (fresh : t.linearized = []) (within : t.ChainsWithin 256 c) :
    ∃ cs t', baseClasses c t = .ok cs t' ∧ t.IsLinearization c cs := by
  have computed : t.Computed t := .of_forgotten fresh
  obtain ⟨t', run, -⟩ := baseClasses_gives (fun _ => within) t computed
  obtain ⟨inOrder, complete, tail, list, rest⟩ := linearUpTo_spec hc within
  refine ⟨_, t', run, ?_⟩
  change t.IsLinearization c (t.linearUpTo 256 c)
  refine ⟨by rw [list]; rfl, inOrder.nodup, complete, fun {d e} hd base => ?_, fun {d} first => ?_⟩
  · have above : t.ChainsWithin 256 d := within.of_isBase ((complete d).1 hd)
    exact inOrder.idxOf_lt hd base (above.ne_of_isProperBase base)
  · have base : t.DirectBase c d := by
      have mem := List.mem_of_find?_eq_some first
      have isClass := List.find?_some first
      rw [Bool.and_eq_true] at isClass
      exact (directBase_iff hc).2 ⟨mem, isClass⟩
    have below : t.ChainsWithin 255 d := within.step base
    obtain ⟨t'', run', -⟩ := baseClasses_gives (s := d) (fun _ => below.mono (by decide)) t computed
    refine ⟨_, t'', run', ?_⟩
    rw [list, rest, linearUpTo_eq (fun _ => below) (by decide : 255 ≤ Limits.linearizationDepth)]
    exact (suffix_mixed (fun p hp => linearUpTo_of_not_class hp) first).trans (List.suffix_cons _ _)

/-- `A`, `B extends A`, `C extends A` and `D extends B with C`, with the identifiers 26 to 29. -/
def diamond : SymbolTable := SymM.after (do
  let pkg ← newPackage Known.rootClass "diamond"
  let a ← newClass pkg "A" .empty
  modify (·.setParents a [Known.anyRefType])
  let b ← newClass pkg "B" .empty
  modify (·.setParents b [.ref (.this pkg) a []])
  let c ← newClass pkg "C" (.single .trait)
  modify (·.setParents c [.ref (.this pkg) a []])
  let d ← newClass pkg "D" .empty
  modify (·.setParents d [.ref (.this pkg) b [], .ref (.this pkg) c []])) .initial

/-- The class that both parents derive from comes once, after both. -/
theorem diamond_isLinearization : diamond.linearized = [] ∧ diamond.ChainsWithin 256 ⟨29⟩ ∧ ∃ t',
    baseClasses ⟨29⟩ diamond = .ok [⟨29⟩, ⟨28⟩, ⟨27⟩, ⟨26⟩, Known.object, Known.any] t' ∧
      diamond.IsLinearization ⟨29⟩ [⟨29⟩, ⟨28⟩, ⟨27⟩, ⟨26⟩, Known.object, Known.any] := by
  have fresh : diamond.linearized = [] := by decide +kernel
  have layered : diamond.Layered :=
    layered_of_descending (by decide +kernel) (by decide +kernel) (by decide +kernel)
  have within : diamond.ChainsWithin 256 ⟨29⟩ := fun cs chain =>
    layered _ (chain.imp fun _ _ step => step.1)
  refine ⟨fresh, within, ?_⟩
  obtain ⟨cs, t', run, linearization⟩ := baseClasses_isLinearization
    (by decide +kernel) fresh within
  have list : (baseClasses ⟨29⟩).answer? diamond =
    some [⟨29⟩, ⟨28⟩, ⟨27⟩, ⟨26⟩, Known.object, Known.any] := by
    decide +kernel
  rw [answer?, run] at list
  obtain rfl := Option.some.inj list
  exact ⟨t', run, linearization⟩

end SymM

end Conformance

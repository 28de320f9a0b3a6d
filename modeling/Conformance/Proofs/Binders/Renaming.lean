import Conformance.Proofs.Expansion
import Conformance.Proofs.Gap

/-! # Renaming types without binders

A type without binders has its symbols replaced where they stand, so renaming it enters no symbols
and is a function on types. Renamings one after another are one renaming, as long as the names in
between are new. Members of refinements are copied where a renaming changes one of them; the types
here have members that it does not. -/

namespace Conformance

/-- The symbol of `dst` at the place that `s` has in `src`; a symbol that has none stays. -/
def newName (src dst : List SymbolId) (s : SymbolId) : SymbolId := (dst[src.idxOf s]?).getD s

section Symbols

variable {src mid dst : List SymbolId} {s : SymbolId}

theorem newName_of_notMem (len : src.length = dst.length)
    (h : s ∉ src) : newName src dst s = s := by
  rw [newName, List.idxOf_eq_length h, List.getElem?_eq_none (Nat.le_of_eq len.symm)]
  rfl

theorem newName_getElem (distinct : src.Nodup) {i : Nat}
    {d : SymbolId} (hs : src[i]? = some s) (hd : dst[i]? = some d) : newName src dst s = d := by
  obtain ⟨lt, rfl⟩ := List.getElem?_eq_some_iff.1 hs
  rw [newName, distinct.idxOf_getElem i lt, hd]
  rfl

theorem exists_newName (len : src.length = dst.length) (h : s ∈ src) :
    ∃ d ∈ dst, dst[src.idxOf s]? = some d ∧ newName src dst s = d := by
  have lt : src.idxOf s < dst.length := len ▸ List.idxOf_lt_length_of_mem h
  have found := List.getElem?_eq_getElem lt
  exact ⟨_, List.getElem_mem lt, found, by rw [newName, found]; rfl⟩

theorem newName_self (src : List SymbolId) (s : SymbolId) : newName src src s = s := by
  by_cases h : s ∈ src
  · have lt : src.idxOf s < src.length := List.idxOf_lt_length_of_mem h
    rw [newName, List.getElem?_eq_getElem lt, List.getElem_idxOf lt]
    rfl
  · exact newName_of_notMem rfl h

theorem newName_newName (len : src.length = mid.length)
    (len' : mid.length = dst.length) (distinct : mid.Nodup)
    (new : s ∉ mid) : newName mid dst (newName src mid s) = newName src dst s := by
  by_cases h : s ∈ src
  · obtain ⟨m, -, hm, eq⟩ := exists_newName len h
    obtain ⟨d, -, hd, eq'⟩ := exists_newName (len.trans len') h
    rw [eq, eq', newName_getElem distinct hm hd]
  · rw [newName_of_notMem len h, newName_of_notMem len' new, newName_of_notMem (len.trans len') h]

theorem renamedSymbol?_newName (len : src.length = dst.length) (t : SymbolTable) :
    renamedSymbol? src dst s t = .ok (if s ∈ src then some (newName src dst s) else none) t := by
  by_cases h : s ∈ src
  · obtain ⟨d, -, hd, eq⟩ := exists_newName len h
    rw [renamedSymbol?_of_mem h hd, if_pos h, eq]
    rfl
  · rw [renamedSymbol?_of_notMem h, if_neg h]
    rfl

end Symbols

namespace Ty

/-- Types without binders, nested at most as deep as given, over symbols that satisfy `S`.
Annotations and refinements, with the types that their members have by `infos`, are over labels,
which satisfy `L`. -/
def Flat (infos : SymbolId → Ty) (S L : SymbolId → Prop) : Nat → Ty → Prop
  | 0, _ => False
  | k + 1, ty =>
    match ty with
    | .noType | .noPrefix | .error | .wildcard | .dangling _ | .const _ | .var _ => True
    | .this s => S s
    | .single pre s => Flat infos S L k pre ∧ S s
    | .ref pre s args => Flat infos S L k pre ∧ S s ∧ ∀ a ∈ args, Flat infos S L k a
    | .refined parents decls cls =>
      (∀ p ∈ parents, Flat infos S L k p) ∧ (∀ d ∈ decls, L d ∧ Flat infos L L k (infos d)) ∧ L cls
    | .annotated as body => as ≠ [] ∧ (∀ a ∈ as, L a) ∧ Flat infos S L k body
    | .boundedWildcard body | .nullary body | .notNull body => Flat infos S L k body
    | .bounds lo hi => Flat infos S L k lo ∧ Flat infos S L k hi
    | .exist .. | .method .. | .poly .. => False

namespace Flat

variable {infos infos' : SymbolId → Ty} {S S' L L' : SymbolId → Prop}
  {k k' : Nat} {ty : Ty} {f g : SymbolId → SymbolId}

theorem imp (h : Flat infos S L k ty) (hS : ∀ s, S s → S' s)
    (hL : ∀ s, L s → L' s) (same : ∀ s, L s → infos' s = infos s) : Flat infos' S' L' k ty := by
  induction k generalizing S S' ty with
  | zero => exact h
  | succ k ih =>
    cases ty with
    | noType | noPrefix | error | wildcard | dangling | const | var => exact trivial
    | this s => exact hS s h
    | single pre s => exact ⟨ih h.1 hS, hS s h.2⟩
    | ref pre s args => exact ⟨ih h.1 hS, hS s h.2.1, fun a mem => ih (h.2.2 a mem) hS⟩
    | refined parents decls cls =>
      refine ⟨fun p mem => ih (h.1 p mem) hS, fun d mem => ?_, hL cls h.2.2⟩
      obtain ⟨label, info⟩ := h.2.1 d mem
      rw [same d label]
      exact ⟨hL d label, ih info hL⟩
    | annotated as body => exact ⟨h.1, fun a mem => hL a (h.2.1 a mem), ih h.2.2 hS⟩
    | boundedWildcard body | nullary body | notNull body =>
      exact ih (show Flat infos S L k body from h) hS
    | bounds lo hi => exact ⟨ih h.1 hS, ih h.2 hS⟩
    | exist | method | poly => exact h

theorem mono (h : Flat infos S L k ty) (le : k ≤ k') : Flat infos S L k' ty := by
  induction k generalizing S k' ty with
  | zero => exact h.elim
  | succ k ih =>
    obtain ⟨k', rfl⟩ : ∃ m, k' = m + 1 := ⟨k' - 1, by omega⟩
    have deeper : ∀ {T : SymbolId → Prop} {c}, Flat infos T L k c → Flat infos T L k' c :=
      fun hc => ih hc (by omega)
    cases ty with
    | noType | noPrefix | error | wildcard | dangling | const | var => exact trivial
    | this s => exact h
    | single pre s => exact ⟨deeper h.1, h.2⟩
    | ref pre s args => exact ⟨deeper h.1, h.2.1, fun a mem => deeper (h.2.2 a mem)⟩
    | refined parents decls cls =>
      exact ⟨fun p mem => deeper (h.1 p mem), fun d mem =>
        ⟨(h.2.1 d mem).1, deeper (h.2.1 d mem).2⟩, h.2.2⟩
    | annotated as body => exact ⟨h.1, h.2.1, deeper h.2.2⟩
    | boundedWildcard body | nullary body | notNull body => exact deeper (c := body) h
    | bounds lo hi => exact ⟨deeper h.1, deeper h.2⟩
    | exist | method | poly => exact h

/-- A function on symbols that keeps the labels takes flat types to flat types. -/
theorem rename (h : Flat infos S L k ty) (hS : ∀ s, S s → S' (f s))
    (hL : ∀ s, L s → L' s ∧ f s = s) : Flat infos S' L' k (ty.relabel f id) := by
  induction k generalizing ty with
  | zero => exact h
  | succ k ih =>
    have all : ∀ {tys : List Ty}, (∀ c ∈ tys, Flat infos S L k c) →
      ∀ c ∈ relabelAll f id tys, Flat infos S' L' k c := by
      intro tys htys c mem
      rw [relabelAll_eq_map] at mem
      obtain ⟨a, ha, rfl⟩ := List.mem_map.1 mem
      exact ih (htys a ha)
    cases ty with
    | noType | noPrefix | error | wildcard | dangling | const | var => exact trivial
    | this s => exact hS s h
    | single pre s => exact ⟨ih h.1, hS s h.2⟩
    | ref pre s args => exact ⟨ih h.1, hS s h.2.1, all h.2.2⟩
    | refined parents decls cls =>
      refine ⟨all h.1, fun d mem => ?_, (hL cls h.2.2).2.symm ▸ (hL cls h.2.2).1⟩
      obtain ⟨e, he, rfl⟩ := List.mem_map.1 mem
      obtain ⟨label, info⟩ := h.2.1 e he
      rw [(hL e label).2]
      exact ⟨(hL e label).1, info.imp (fun s hs => (hL s hs).1) (fun s hs => (hL s hs).1) fun _ _ =>
        rfl⟩
    | annotated as body =>
      refine ⟨fun eq => h.1 (List.map_eq_nil_iff.1 eq), fun a mem => ?_, ih h.2.2⟩
      obtain ⟨b, hb, rfl⟩ := List.mem_map.1 mem
      rw [(hL b (h.2.1 b hb)).2]
      exact (hL b (h.2.1 b hb)).1
    | boundedWildcard body | nullary body | notNull body =>
      exact ih (show Flat infos S L k body from h)
    | bounds lo hi => exact ⟨ih h.1, ih h.2⟩
    | exist | method | poly => exact h

theorem rename_congr (h : Flat infos S L k ty) (hS : ∀ s, S s → f s = g s)
    (hL : ∀ s, L s → f s = g s) : ty.relabel f id = ty.relabel g id := by
  induction k generalizing ty with
  | zero => exact h.elim
  | succ k ih =>
    have all : ∀ {tys : List Ty}, (∀ c ∈ tys, Flat infos S L k c) →
      relabelAll f id tys = relabelAll g id tys := by
      intro tys htys
      rw [relabelAll_eq_map, relabelAll_eq_map]
      exact List.map_congr_left fun c mem => ih (htys c mem)
    cases ty with
    | noType | noPrefix | error | wildcard | dangling | const | var => rfl
    | this s => rw [Ty.relabel, Ty.relabel, hS s h]
    | single pre s => rw [Ty.relabel, Ty.relabel, ih h.1, hS s h.2]
    | ref pre s args => rw [Ty.relabel, Ty.relabel, ih h.1, hS s h.2.1, all h.2.2]
    | refined parents decls cls =>
      rw [Ty.relabel, Ty.relabel, all h.1, List.map_congr_left fun d mem =>
        hL d (h.2.1 d mem).1, hL cls h.2.2]
    | annotated as body =>
      rw [Ty.relabel, Ty.relabel, ih h.2.2, List.map_congr_left fun a mem => hL a (h.2.1 a mem)]
    | boundedWildcard body | nullary body | notNull body =>
      rw [Ty.relabel, Ty.relabel, ih (show Flat infos S L k body from h)]
    | bounds lo hi => rw [Ty.relabel, Ty.relabel, ih h.1, ih h.2]
    | exist | method | poly => exact h.elim

theorem rename_eq (h : Flat infos S L k ty) (hS : ∀ s, S s → f s = s)
    (hL : ∀ s, L s → f s = s) : ty.relabel f id = ty :=
  (h.rename_congr (g := id) hS hL).trans (Movable.relabel_id ty)

theorem part {c : Ty} (h : Flat infos S L (k + 1) ty)
    (mem : c ∈ ty.parts) : Flat infos S L k c := by
  cases ty with
  | ref pre s args => exact (List.mem_cons.1 mem).elim (fun eq => eq ▸ h.1) (h.2.2 c)
  | refined parents decls cls => exact h.1 c mem
  | bounds lo hi =>
    exact (List.mem_cons.1 mem).elim (fun eq => eq ▸ h.1) fun mem => List.mem_singleton.1 mem ▸ h.2
  | single pre s => exact List.mem_singleton.1 mem ▸ h.1
  | annotated as body => exact List.mem_singleton.1 mem ▸ h.2.2
  | boundedWildcard | nullary | notNull => exact List.mem_singleton.1 mem ▸ h
  | exist | method | poly => exact h.elim
  | _ => cases mem

/-- A type whose own name and labels stay is renamed part by part. -/
theorem rename_eq_onParts (h : Flat infos S L (k + 1) ty)
    (names : Vocabulary.Has { symbol := fun s => f s = s } ty)
    (hL : ∀ s, L s → f s = s) : ty.relabel f id = ty.onParts (Ty.relabel f id) := by
  have same : ∀ {ss : List SymbolId}, (∀ s ∈ ss, L s) → ss.map f = ss := fun labels =>
    (List.map_congr_left fun s mem => hL s (labels s mem)).trans (List.map_id' _)
  cases ty with
  | refined parents decls cls =>
    rw [Ty.relabel, relabelAll_eq_map, same fun d mem => (h.2.1 d mem).1, hL cls h.2.2, onParts]
  | annotated as body =>
    rw [Ty.relabel, same h.2.1, onParts]
    split
    next eq => rw [eq]
    next => exact (if_neg (by simpa using h.1)).symm
  | exist | method | poly => exact h.elim
  | _ => simp_all [Ty.relabel, onParts, Vocabulary.Has, relabelAll_eq_map]

end Flat

end Ty

/-- Renaming symbols that are no labels. -/
theorem substSym_flat {infos : SymbolId → Ty} {S L : SymbolId → Prop} {src dst : List SymbolId}
    {k fuel : Nat} {ty : Ty} (h : ty.Flat infos S L k) (labels : ∀ s, L s → s ∉ src) (le : k ≤ fuel)
    (len : src.length = dst.length) {t : SymbolTable} (read : ∀ s, L s → t.info s = infos s) :
    substSym fuel src dst ty t = .ok (ty.relabel (newName src dst) id) t := by
  have kept : ∀ s, L s → newName src dst s = s := fun s hs => newName_of_notMem len (labels s hs)
  induction k generalizing S fuel ty with
  | zero => exact h.elim
  | succ k ih =>
    obtain ⟨fuel, rfl⟩ : ∃ m, fuel = m + 1 := ⟨fuel - 1, by omega⟩
    have part : ∀ {T : SymbolId → Prop} {c : Ty}, c.Flat infos T L k → substSym
        fuel src dst c t = .ok (c.relabel (newName src dst) id) t := fun hc => ih hc (by omega)
    -- members have the types that they had, so they are not copied
    have mapped : Vocabulary.Has { symbol := fun s => newName src dst s = s } ty →
        (Rebinding.at fuel).mapOver (substSym fuel src dst)
        ty t = .ok (ty.relabel (newName src dst) id) t := by
      intro names
      rw [h.rename_eq_onParts names kept]
      refine Rebinding.mapOver_run _ (fun c mem => part (h.part mem)) fun d mem => ?_
      cases ty with
      | refined parents decls cls =>
        obtain ⟨label, info⟩ := h.2.1 d mem
        rw [read d label, part info, info.rename_eq kept kept]
      | exist | method | poly => exact h.elim
      | _ => cases mem
    unfold substSym
    split
    · next trivially =>
      obtain none | sentinel := Bool.or_eq_true_iff.1 trivially
      · have none : src = [] := List.isEmpty_iff.1 none
        have nothing : ∀ s, newName src dst s = s :=
          fun s => newName_of_notMem len (none ▸ List.not_mem_nil)
        exact congrArg (EStateM.Result.ok · t)
          (h.rename_eq (fun s _ => nothing s) fun s _ => nothing s).symm
      · cases ty <;> first | rfl | cases sentinel
    · cases ty with
      | this s =>
        show (renamedSymbol? src dst s >>= _) t = _
        rw [CheckM.bind_ok (renamedSymbol?_newName len t)]
        by_cases mem : s ∈ src
        · rw [if_pos mem]
          rfl
        · rw [if_neg mem, Ty.relabel, newName_of_notMem len mem]
          rfl
      | single pre s =>
        show (renamedSymbol? src dst s >>= _) t = _
        rw [CheckM.bind_ok (renamedSymbol?_newName len t)]
        by_cases mem : s ∈ src
        · rw [if_pos mem]
          show (substSym fuel src dst pre >>= _) t = _
          rw [CheckM.bind_ok (part h.1)]
          rfl
        · rw [if_neg mem]
          exact mapped (newName_of_notMem len mem)
      | ref pre s args =>
        show (renamedSymbol? src dst s >>= _) t = _
        rw [CheckM.bind_ok (renamedSymbol?_newName len t)]
        by_cases mem : s ∈ src
        · rw [if_pos mem, Ty.relabel, Ty.relabelAll_eq_map]
          show (substSym fuel src dst pre >>= _) t = _
          rw [CheckM.bind_ok (part h.1), CheckM.bind_ok
            (mapM_fixed fun a mem => part (h.2.2 a mem))]
          rfl
        · rw [if_neg mem]
          exact mapped (newName_of_notMem len mem)
      | _ => exact mapped trivial

/-! ## Copies of bound symbols

Copies are new symbols with the records of the originals, but for the infos: these refer to the
copies where those of the originals refer to one another. -/

variable {t : SymbolTable}

namespace SymbolTable

/-- `cs` are new symbols in `t'` with the records that `ps` have in `t`, infos changed by `g`. -/
structure Copies (g : Ty → Ty) (t t' : SymbolTable) (ps cs : List SymbolId) : Prop where
  length : ps.length = cs.length
  distinct : cs.Nodup
  grown : t.Extends t.size t'
  new {c : SymbolId} : c ∈ cs → t.size ≤ c.val ∧ c.val < t'.size
  record {i : Nat} {p c : SymbolId} : ps[i]? = some p → cs[i]? = some c →
    t'.get c = { t.get p with id := c, info := g (t.info p) }

namespace Copies

variable {g : Ty → Ty} {t t' : SymbolTable} {ps cs : List SymbolId}

theorem original (h : Copies g t t' ps cs) {c : SymbolId} (mem : c ∈ cs) :
    ∃ (i : Nat) (p : SymbolId), ps[i]? = some p ∧ cs[i]? = some c := by
  obtain ⟨i, hc⟩ := List.mem_iff_getElem?.1 mem
  have lt : i < ps.length := h.length ▸ (List.getElem?_eq_some_iff.1 hc).1
  exact ⟨i, _, List.getElem?_eq_getElem lt, hc⟩

end Copies

end SymbolTable

open SymbolTable

theorem cloneEach_run {ps : List SymbolId} (entered : ∀ p ∈ ps, p.val < t.size) :
    ∃ cs t', ps.mapM SymM.cloneSymbol t = .ok cs t' ∧ Copies id t t' ps cs := by
  obtain ⟨t', run, grown, new, records⟩ := mapM_enters (t := t)
    (R := fun p c r => r = { t.get p with id := c }) fun p (mem : p ∈ ps) t1 h1 =>
    ⟨t1.get p, rfl, fun _ => by rw [h1.get_eq (entered p mem)]⟩
  refine ⟨_, t', run, records.length_eq, t.nextIds_nodup _, grown, new _, fun hp hc => ?_⟩
  obtain ⟨hi, rfl⟩ := List.getElem?_eq_some_iff.1 hp
  obtain ⟨hi', rfl⟩ := List.getElem?_eq_some_iff.1 hc
  exact records.get hi hi'

section Infos

variable {infos : SymbolId → Ty} {S L : SymbolId → Prop}
  {src dst : List SymbolId} {k fuel base : Nat} (labels : ∀ s, L s → s ∉ src ∧ s.val < base)
  (le : k ≤ fuel) (len : src.length = dst.length)
include labels le len

/-- Infos are renamed one by one, each where it stands. -/
theorem renameInfos_run {cs : List SymbolId} (distinct : cs.Nodup)
    (inside : ∀ c ∈ cs, base ≤ c.val ∧ c.val < t.size)
    (flat : ∀ c ∈ cs, (t.info c).Flat infos S L k)
    (read : ∀ s, L s → t.info s = infos s) :
    ∃ t', (cs.forM fun c => do SymM.setInfo c (← substSym fuel src dst (← SymM.info c)) : SymM Unit)
    t = .ok () t' ∧
      t.Extends base t' ∧ t'.size = t.size ∧
      (∀ c ∈ cs, t'.get c = { t.get c with info := (t.info c).relabel (newName src dst) id }) ∧
      ∀ s, s.val < t.size → s ∉ cs → t'.get s = t.get s := by
  induction cs generalizing t with
  | nil => exact ⟨t, rfl, .refl _ _, rfl, nofun, fun _ _ _ => rfl⟩
  | cons c cs ih =>
    obtain ⟨notMem, distinct⟩ := List.nodup_cons.1 distinct
    obtain ⟨above, lt⟩ := inside c List.mem_cons_self
    let t1 := t.setInfo c ((t.info c).relabel (newName src dst) id)
    have size1 : t1.size = t.size := size_update ..
    have other : ∀ s, s.val < t.size → s ≠ c → t1.get s = t.get s :=
      fun s hs ne => get_update_ne hs ne _
    have rest : ∀ d ∈ cs, d.val < t.size ∧ d ≠ c := fun d mem =>
      ⟨(inside d (List.mem_cons_of_mem _ mem)).2, fun eq => notMem (eq ▸ mem)⟩
    obtain ⟨t', run, grown, size, renamed, kept⟩ := ih (t := t1) distinct
      (fun d mem => by rw [size1]; exact inside d (List.mem_cons_of_mem _ mem))
      (fun d mem => by
        rw [SymbolTable.info, other d (rest d mem).1 (rest d mem).2]
        exact flat d (List.mem_cons_of_mem _ mem))
      fun s hs => by
        have below := (labels s hs).2
        rw [SymbolTable.info, other s (by omega) fun same => absurd (same ▸ above) (by omega)]
        exact read s hs
    have first : (do SymM.setInfo c (← substSym fuel src dst (← SymM.info c)) : SymM Unit)
      t = .ok () t1 := by
      show (substSym fuel src dst (t.info c) >>= _) t = _
      rw [CheckM.bind_ok (substSym_flat (flat c List.mem_cons_self)
        (fun s hs => (labels s hs).1) le len read)]
      rfl
    have written : t.Extends base t1 := t.extends_update above fun _ => rfl
    refine ⟨t', ?_, written.trans grown, size.trans size1, fun d mem => ?_, fun s hs ne => ?_⟩
    · show ((do SymM.setInfo c (← substSym fuel src dst (← SymM.info c)) : SymM Unit) >>= _) t = _
      rw [CheckM.bind_ok first]
      exact run
    · obtain rfl | mem := List.mem_cons.1 mem
      · rw [kept d (by rw [size1]; exact lt) notMem]
        exact get_setInfo lt _
      · rw [renamed d mem, SymbolTable.info, other d (rest d mem).1 (rest d mem).2]
        rfl
    · rw [List.mem_cons, not_or] at ne
      rw [kept s (by rw [size1]; exact hs) ne.2, other s hs ne.1]

end Infos

/-- Copies of symbols with flat infos. -/
theorem cloneSymbols_run {infos : SymbolId → Ty} {S L : SymbolId → Prop}
    {ps : List SymbolId} {k fuel : Nat} (labels : ∀ s, L s → s ∉ ps ∧ s.val < t.size)
    (read : ∀ s, L s → t.info s = infos s) (entered : ∀ p ∈ ps, p.val < t.size)
    (flat : ∀ p ∈ ps, (t.info p).Flat infos S L k) (le : k ≤ fuel) : ∃ cs t', cloneSymbols
    fuel ps t = .ok cs t' ∧ Copies (·.relabel (newName ps cs) id) t t' ps cs := by
  obtain ⟨cs, t1, cloned, copies⟩ := cloneEach_run entered
  -- a copy has the info of its original until it is given its own
  have flat1 : ∀ c ∈ cs, (t1.info c).Flat infos S L k := by
    intro c mem
    obtain ⟨i, p, hp, hc⟩ := copies.original mem
    rw [SymbolTable.info, copies.record hp hc]
    exact flat p (List.mem_of_getElem? hp)
  have inside : ∀ c ∈ cs, t.size ≤ c.val ∧ c.val < t1.size := fun c mem => copies.new mem
  have read1 : ∀ s, L s → t1.info s = infos s := fun s hs => by
    rw [SymbolTable.info, copies.grown.get_eq (labels s hs).2]
    exact read s hs
  obtain ⟨t', renamed, grown, size, records, _⟩ :=
    renameInfos_run labels le copies.length copies.distinct inside flat1 read1
  refine ⟨cs, t', ?_, copies.length, copies.distinct, copies.grown.trans grown, fun mem =>
    ?_, fun {i p c} hp hc => ?_⟩
  · show (ps.mapM SymM.cloneSymbol >>= _) t = _
    rw [CheckM.bind_ok cloned, CheckM.bind_ok renamed]
    rfl
  · rw [size]
    exact copies.new mem
  · rw [records c (List.mem_of_getElem? hc), SymbolTable.info, copies.record hp hc]
    rfl

end Conformance

import Conformance.Proofs.Endings.Convergence
import Conformance.Proofs.Scope.Basic

/-! # Visible members

Members are taken from the classes of a type in order, and one that is found hides later ones. What
an earlier class contributes therefore does not depend on the later classes, and the later classes
contribute nothing exactly if all that they declare is hidden already. -/

namespace Conformance

variable {fuel : Nat} {cls : SymbolId} {t' : SymbolTable} {name : String}

namespace SymbolTable

variable (t : SymbolTable)

/-- `found`, then those of `ms` that nothing found before them hides. -/
def addVisible (found ms : List SymbolId) : List SymbolId :=
  ms.foldl (fun found m => if found.any (t.hides · m) then found else found ++ [m]) found

/-- The members named `name` that are visible in a type with the classes `owners`. -/
def visibleIn (owners : List SymbolId) (name : String) : List SymbolId :=
  t.addVisible [] (owners.flatMap (t.declsNamed · name))

variable {t} {found ms ns : List SymbolId} {d : SymbolId}

@[simp] theorem addVisible_nil : t.addVisible found [] = found := rfl

theorem addVisible_cons {m : SymbolId} : t.addVisible found
    (m :: ms) = t.addVisible (if found.any (t.hides · m) then found else found ++ [m]) ms := rfl

theorem addVisible_append : t.addVisible found (ms ++ ns) =
    t.addVisible (t.addVisible found ms) ns := List.foldl_append

theorem prefix_addVisible : found <+: t.addVisible found ms := by
  induction ms generalizing found with
  | nil => exact List.prefix_rfl
  | cons m ms ih =>
    rw [addVisible_cons]
    split
    next => exact ih
    next => exact (List.prefix_append found [m]).trans ih

theorem subset_addVisible {e : SymbolId} (h : e ∈ found) : e ∈ t.addVisible found ms :=
    prefix_addVisible.subset h

/-- Nothing is added exactly if everything is hidden by what was found before. -/
theorem addVisible_eq_self_iff : t.addVisible found ms = found ↔
    ∀ m ∈ ms, ∃ e ∈ found, t.hides e m = true := by
  induction ms generalizing found with
  | nil => simp
  | cons m ms ih =>
    rw [addVisible_cons, List.forall_mem_cons]
    cases hidden : found.any (t.hides · m) with
    | true =>
      rw [if_pos rfl, ih]
      exact ⟨fun h => ⟨List.any_eq_true.1 hidden, h⟩, And.right⟩
    | false =>
      rw [if_neg (by simp)]
      constructor
      · intro same
        have longer : (found ++ [m]).length ≤ (t.addVisible (found ++ [m]) ms).length :=
          prefix_addVisible.length_le
        rw [same, List.length_append, List.length_singleton] at longer
        omega
      · rintro ⟨⟨e, he, hides⟩, -⟩
        have : found.any (t.hides · m) = true := List.any_eq_true.2 ⟨e, he, hides⟩
        rw [hidden] at this
        cases this

theorem mem_of_mem_addVisible (h : d ∈ t.addVisible found ms) : d ∈ found ∨ d ∈ ms := by
  induction ms generalizing found with
  | nil => exact .inl h
  | cons m ms ih =>
    rw [addVisible_cons] at h
    rcases ih h with hd | hd
    · split at hd
      · exact .inl hd
      · rcases List.mem_append.1 hd with hd | hd
        · exact .inl hd
        · exact .inr (List.mem_cons.2 (.inl (List.mem_singleton.1 hd)))
    · exact .inr (List.mem_cons_of_mem _ hd)

/-- What is looked at is found, or hidden by something found. -/
theorem mem_or_hidden (h : d ∈ ms) : d ∈ t.addVisible found ms ∨
    ∃ e ∈ t.addVisible found ms, t.hides e d = true := by
  induction ms generalizing found with
  | nil => cases h
  | cons m ms ih =>
    rw [addVisible_cons]
    rcases List.mem_cons.1 h with rfl | h
    · split
      next hidden =>
        obtain ⟨e, he, hides⟩ := List.any_eq_true.1 hidden
        exact .inr ⟨e, subset_addVisible he, hides⟩
      next => exact .inl (subset_addVisible (by simp))
    · exact ih h

theorem not_mem_of_hidden {e : SymbolId} (absent : d ∉ found)
    (he : e ∈ found) (hides : t.hides e d = true) : d ∉ t.addVisible found ms := by
  induction ms generalizing found with
  | nil => exact absent
  | cons m ms ih =>
    rw [addVisible_cons]
    split
    next => exact ih absent he
    next visible =>
      refine ih ?_ (List.mem_append_left _ he)
      intro hd
      rcases List.mem_append.1 hd with hd | hd
      · exact absent hd
      · obtain rfl := List.mem_singleton.1 hd
        exact visible (List.any_eq_true.2 ⟨e, he, hides⟩)

/-- Later classes change nothing for a member of the earlier ones. -/
theorem mem_addVisible_append (h : d ∈ ms) : d ∈ t.addVisible found (ms ++ ns) ↔
    d ∈ t.addVisible found ms := by
  rw [addVisible_append]
  refine ⟨fun later => ?_, subset_addVisible⟩
  have seen : d ∈ t.addVisible found ms ∨ ∃ e ∈ t.addVisible found ms, t.hides e d = true :=
    mem_or_hidden h
  rcases seen with hd | ⟨e, he, hides⟩
  · exact hd
  · exact Decidable.byContradiction fun absent => not_mem_of_hidden absent he hides later

theorem addVisible_congr (hfound : ∀ s ∈ found, t'.get s = t.get s)
    (hms : ∀ s ∈ ms, t'.get s = t.get s) : t'.addVisible found ms = t.addVisible found ms := by
  induction ms generalizing found with
  | nil => rfl
  | cons m ms ih =>
    obtain ⟨hm, hms⟩ := List.forall_mem_cons.1 hms
    have same : found.any (t'.hides · m) = found.any (t.hides · m) := by
      rw [Bool.eq_iff_iff, List.any_eq_true, List.any_eq_true]
      refine exists_congr fun e => and_congr_right fun he => ?_
      rw [hides, hides, hfound e he, hm]
    rw [addVisible_cons, addVisible_cons, same]
    split
    next => exact ih hfound hms
    next =>
      refine ih (fun s hs => ?_) hms
      rcases List.mem_append.1 hs with hs | hs
      · exact hfound s hs
      · rw [List.mem_singleton.1 hs, hm]

theorem declsNamed_congr (hcls : t'.get cls = t.get cls)
    (hdecls : ∀ d ∈ (t.get cls).decls, t'.get d = t.get d) :
    t'.declsNamed cls name = t.declsNamed cls name := by
  rw [declsNamed, declsNamed, hcls]
  refine List.filter_congr fun d hd => ?_
  rw [hdecls d (Array.mem_toList_iff.1 hd)]

theorem visibleIn_cons {rest : List SymbolId} : t.visibleIn (cls :: rest) name =
      t.addVisible (t.visibleIn [cls] name) (rest.flatMap (t.declsNamed · name)) := by
  rw [visibleIn, visibleIn, List.flatMap_cons, addVisible_append, List.flatMap_singleton]

theorem visibleIn_singleton_congr (hcls : t'.get cls = t.get cls)
    (hdecls : ∀ d ∈ (t.get cls).decls, t'.get d = t.get d) :
    t'.visibleIn [cls] name = t.visibleIn [cls] name := by
  rw [visibleIn, visibleIn, List.flatMap_singleton,
    List.flatMap_singleton, declsNamed_congr hcls hdecls]
  refine addVisible_congr (fun s hs => absurd hs List.not_mem_nil) fun s hs => ?_
  have := (List.mem_filter.1 hs).1
  exact hdecls s (Array.mem_toList_iff.1 this)

end SymbolTable

open SymM SymbolTable

/-! ## Lookups -/

section Lookups

variable {t t' : SymbolTable} {ty : Ty} {name : String} {owners : List SymbolId}

theorem exists_of_findMember {found : List SymbolId}
    (run : findMember fuel ty name t = .ok found t') :
    ∃ owners, memberOwners fuel ty t = .ok owners t' ∧ found = t'.visibleIn owners name := by
  obtain ⟨owners, t1, hrun, rest⟩ := exists_of_bind run
  cases rest
  exact ⟨owners, hrun, rfl⟩

theorem findMember_converges (h : Converges (memberOwners · ty) t owners t') :
    Converges (findMember · ty name) t (t'.visibleIn owners name) t' := h.bind (.const rfl)

/-- What is appended was not there. -/
theorem exists_addNew (out new : List SymbolId) : ∃ extra, addNew out new = out ++ extra ∧
    ∀ s ∈ extra, s ∉ out := by
  unfold addNew
  induction new generalizing out with
  | nil => exact ⟨[], by simp⟩
  | cons s new ih =>
    rw [List.foldl_cons]
    split
    next => exact ih out
    next absent =>
      obtain ⟨extra, sum, fresh⟩ := ih (out ++ [s])
      refine ⟨s :: extra, by rw [sum, List.append_assoc]; rfl, fun c hc => ?_⟩
      rcases List.mem_cons.1 hc with rfl | hc
      · simpa using absent
      · exact fun hout => fresh c hc (List.mem_append_left _ hout)

theorem exists_of_foldlM_addNew {f : Ty → SymM (List SymbolId)} {parents : List Ty}
    {out : List SymbolId} (run : (parents.foldlM (fun out parent => return addNew out (← f parent))
    out : SymM _) t = .ok owners t') : ∃ extra, owners = out ++ extra ∧ ∀ s ∈ extra, s ∉ out := by
  induction parents generalizing out t with
  | nil =>
    cases run
    exact ⟨[], by simp⟩
  | cons p ps ih =>
    obtain ⟨out', t1, first, rest⟩ := exists_of_bind run
    obtain ⟨new, t2, -, last⟩ := exists_of_bind first
    cases last
    obtain ⟨extra, sum, fresh⟩ := exists_addNew out new
    obtain ⟨extra', sum', fresh'⟩ := ih rest
    refine ⟨extra ++ extra', by rw [sum', sum, List.append_assoc], fun s hs hout => ?_⟩
    rcases List.mem_append.1 hs with hs | hs
    · exact fresh s hs hout
    · exact fresh' s hs (by rw [sum]; exact List.mem_append_left _ hout)

/-- A refinement class comes first among the classes of its refined type, and once. -/
theorem exists_of_refined_owners {ps : List Ty} {ds : List SymbolId}
    (run : baseClassesOf fuel (.refined ps ds cls) t = .ok owners t') :
    ∃ rest, owners = cls :: rest ∧ cls ∉ rest := by
  cases fuel with
  | zero => cases run
  | succ fuel =>
    obtain ⟨rest, sum, fresh⟩ := exists_of_foldlM_addNew run
    exact ⟨rest, sum, fun mem => fresh cls mem (by simp)⟩

end Lookups

end Conformance

import Conformance.Proofs.Attains
import Conformance.Proofs.Reach

/-! # Quantifiers of a base type

The base type of an existential type keeps those quantifiers that the base type of its body
mentions. A quantifier that is kept brings its bounds along, and these may mention others. The
result binds all that it mentions exactly if the bounds of what is kept mention nothing that is
dropped. -/

namespace Conformance

namespace SymbolTable

variable {t : SymbolTable}

/-- A type mentions a symbol in one of its components. -/
theorem mentionsSymbol_of_reaches {ty c : Ty} {s : SymbolId} (reaches : t.Reaches ty c)
    (mentions : t.mentionsSymbol c s = true) : t.mentionsSymbol ty s = true := by
  obtain ⟨c', hc', named⟩ := existsType_iff.1 mentions
  exact existsType_iff.2 ⟨c', reaches.trans hc', named⟩

/-- An existential type mentions what its body and the infos of its quantifiers mention. -/
theorem mentionsSymbol_exist {qs : List SymbolId} {body : Ty}
      {s : SymbolId} : t.mentionsSymbol (.exist qs body) s = true ↔
      t.mentionsSymbol body s = true ∨ ∃ q ∈ qs, t.mentionsSymbol (t.info q) s = true := by
  constructor
  · intro mentions
    obtain ⟨c, reaches, named⟩ := existsType_iff.1 mentions
    cases reaches with
    | refl => cases named
    | child mem rest =>
      have inner : t.mentionsSymbol _ s = true := existsType_iff.2 ⟨c, rest, named⟩
      obtain part | info := mem_children.1 mem
      · exact .inl (List.mem_singleton.1 part ▸ inner)
      · obtain ⟨q, hq, rfl, -⟩ := mem_infos.1 info
        exact .inr ⟨q, hq, inner⟩
  · rintro (mentions | ⟨q, hq, mentions⟩)
    · exact mentionsSymbol_of_reaches (.child (mem_children.2 (.inl List.mem_cons_self)) (.refl _))
        mentions
    · refine mentionsSymbol_of_reaches
        (.child (mem_children.2 (.inr (mem_infos.2 ⟨q, hq, rfl, ?_⟩))) (.refl _)) mentions
      cases info : t.info q with
      | noType =>
        -- what is absent mentions nothing
        rw [info] at mentions
        obtain ⟨c, reaches, named⟩ := existsType_iff.1 mentions
        cases reaches with
        | refl => cases named
        | child mem => cases mem
      | _ => rfl

/-- The quantifiers among `qs` that `ty` mentions are bound by it. -/
def BindsMentioned (t : SymbolTable) (ty : Ty) (qs : List SymbolId) : Prop :=
  ∀ q ∈ qs, t.mentionsSymbol ty q = true → q ∈ ty.binders

instance (ty : Ty) (qs : List SymbolId) : Decidable (t.BindsMentioned ty qs) :=
    inferInstanceAs (Decidable (∀ _ ∈ _, _))

/-- The bounds of the quantifiers that `ty` mentions mention none that `ty` does not. -/
def BoundsKept (t : SymbolTable) (ty : Ty) (qs : List SymbolId) : Prop :=
  ∀ q ∈ qs, t.mentionsSymbol ty q = true → ∀ q' ∈ qs, t.mentionsSymbol (t.info q) q' = true →
    t.mentionsSymbol ty q' = true

instance (ty : Ty) (qs : List SymbolId) : Decidable (t.BoundsKept ty qs) :=
    inferInstanceAs (Decidable (∀ _ ∈ _, _))

variable {ty : Ty} {qs : List SymbolId}

theorem mem_binders_existential {q : SymbolId} (hq : q ∈ qs)
    (mentions : t.mentionsSymbol ty q = true) : q ∈
    (Ty.existential (qs.filter (t.mentionsSymbol ty)) ty).binders := by
  have kept : q ∈ qs.filter (t.mentionsSymbol ty) := List.mem_filter.2 ⟨hq, mentions⟩
  rw [Ty.existential, if_neg (by rw [List.isEmpty_iff]; exact List.ne_nil_of_mem kept)]
  exact kept

theorem binds_existential_iff : t.BindsMentioned (.existential (qs.filter (t.mentionsSymbol ty)) ty)
    qs ↔ t.BoundsKept ty qs := by
  cases kept : qs.filter (t.mentionsSymbol ty) with
  | nil =>
    -- nothing is mentioned, so there is nothing to bind
    have none : ∀ q ∈ qs, t.mentionsSymbol ty q ≠ true := List.filter_eq_nil_iff.1 kept
    exact iff_of_true (fun q hq mentions => absurd mentions (none q hq)) fun q hq mentions =>
      absurd mentions (none q hq)
  | cons k ks =>
    have mem : ∀ {q}, q ∈ k :: ks ↔ q ∈ qs ∧ t.mentionsSymbol ty q = true :=
      fun {q} => by rw [← kept, List.mem_filter]
    constructor
    · intro binds q hq mentions q' hq' bound
      exact (mem.1
        (binds q' hq' (mentionsSymbol_exist.2 (.inr ⟨q, mem.2 ⟨hq, mentions⟩, bound⟩)))).2
    · intro bounds q hq mentions
      refine mem.2 ⟨hq, ?_⟩
      obtain mentions | ⟨q', hq', bound⟩ := mentionsSymbol_exist.1 mentions
      · exact mentions
      · exact bounds q' (mem.1 hq').1 (mem.1 hq').2 q hq bound

end SymbolTable

/-- The base type of an existential type binds every quantifier that the base type of the body
mentions, and it binds every quantifier that it mentions itself, through bounds too, exactly if the
bounds of those that it keeps mention no other. -/
theorem baseType_binds_quantifiers_iff {fuel : Nat} {qs : List SymbolId} {body ty : Ty}
    {cls : SymbolId} {t t' : SymbolTable} (run : baseType fuel (.exist qs body) cls t = .ok ty t')
    (present : ty.isPresent = true) : ∃ found,
      View.baseTypeUpTo fuel (asSeenFrom fuel) cls Limits.baseTypeDepth body t = .ok found t' ∧
      (∀ q ∈ qs, t'.mentionsSymbol found q = true → q ∈ ty.binders) ∧
        (t'.BindsMentioned ty qs ↔ t'.BoundsKept found qs) := by
  obtain ⟨found, t1, search, rest⟩ := exists_of_bind run
  cases here : found.isPresent with
  | false =>
    rw [here] at rest
    cases rest
    rw [here] at present
    cases present
  | true =>
    rw [here] at rest
    cases rest
    exact ⟨found, search, fun q hq mentions => SymbolTable.mem_binders_existential hq mentions,
      SymbolTable.binds_existential_iff⟩

/-- A class `Box[A]` and quantifiers `q <: Box[r]` and `r <: Box[r]`, with the identifiers 24, 26
and 27. -/
def SymbolTable.quantified : SymbolTable := SymM.after (do
  let box ← SymM.newClass Known.scalaClass "Box" .empty
  let a ← SymM.newTypeParam box "A" .invariant
  modify (·.setTParams box [a])
  let q ← SymM.newExistential Known.scalaClass "q"
  let r ← SymM.newExistential Known.scalaClass "r"
  let bounds : Ty :=
    .bounds Known.nothingType (.ref (.this Known.scalaClass) box [.ref .noPrefix r []])
  SymM.setInfo q bounds
  SymM.setInfo r bounds) .initial

/-- `Box[r] forSome { r <: Box[r] }` is its own base type: what the bound of `r` mentions is
kept. -/
theorem recursive_bound_is_kept :
    let body : Ty := .ref (.this Known.scalaClass) ⟨24⟩ [.ref .noPrefix ⟨27⟩ []]
    ∃ t', baseType 9 (.exist [⟨27⟩] body) ⟨24⟩ .quantified = .ok (.exist [⟨27⟩] body) t' ∧
      t'.mentionsSymbol (t'.info ⟨27⟩) ⟨27⟩ = true ∧
        t'.BoundsKept body [⟨27⟩] ∧ t'.BindsMentioned (.exist [⟨27⟩] body) [⟨27⟩] := by
  intro body
  have facts : SymbolTable.quantified.mentionsSymbol body ⟨27⟩ = true ∧
      SymbolTable.quantified.mentionsSymbol (SymbolTable.quantified.info ⟨27⟩) ⟨27⟩ = true ∧
      SymbolTable.quantified.BoundsKept body [⟨27⟩] := by decide +kernel
  obtain ⟨named, recursive, bounds⟩ := facts
  have run : baseType 9 (.exist [⟨27⟩] body) ⟨24⟩ .quantified =
    .ok (.exist [⟨27⟩] body) .quantified := by
    show EStateM.Result.ok
      (Ty.existential ([⟨27⟩].filter (SymbolTable.quantified.mentionsSymbol body)) body) _ = _
    rw [List.filter_cons_of_pos named]
    rfl
  obtain ⟨found, search, -, iff⟩ := baseType_binds_quantifiers_iff run rfl
  obtain rfl : body = found := by injection search
  exact ⟨_, run, recursive, bounds, iff.2 bounds⟩

/-- The base type of `Box[q] forSome { q <: Box[r]; r <: Box[r] }` keeps `q` alone, whose bound
mentions `r`. -/
theorem dropped_quantifier_is_mentioned :
    let body : Ty := .ref (.this Known.scalaClass) ⟨24⟩ [.ref .noPrefix ⟨26⟩ []]
    ∃ t', baseType 9 (.exist [⟨26⟩, ⟨27⟩] body) ⟨24⟩ .quantified = .ok (.exist [⟨26⟩] body) t' ∧
      t'.mentionsSymbol (.exist [⟨26⟩] body) ⟨27⟩ = true ∧ ¬ t'.BindsMentioned (.exist [⟨26⟩] body)
        [⟨26⟩, ⟨27⟩] := by
  intro body
  refine ⟨.quantified, ?_, by decide +kernel, by decide +kernel⟩
  have kept : [(⟨26⟩ : SymbolId), ⟨27⟩].filter (SymbolTable.quantified.mentionsSymbol body) =
    [⟨26⟩] := by decide +kernel
  show EStateM.Result.ok
    (Ty.existential ([⟨26⟩, ⟨27⟩].filter (SymbolTable.quantified.mentionsSymbol body)) body) _ = _
  rw [kept]
  rfl

end Conformance

import Conformance.Proofs.Classes.Acceptance

/-! # Plain classes in a table that grows

Queries may enter symbols, but no class of a package. So the plain classes of a table stay what they
are while the table grows, and so does what is said of them: derivation, class types, base types,
acceptance. -/

namespace Conformance

variable {c s : SymbolId} {l ty : Ty}

open SymM CheckM

namespace SymbolTable

variable {t t' : SymbolTable}

/-! ## Tables with the same plain classes -/

/-- The two tables have the same packages and the same plain classes. -/
structure Agrees (t t' : SymbolTable) : Prop where
  package : ∀ p, t'.IsPackage p ↔ t.IsPackage p
  plain : ∀ c, t'.IsPlainClass c ↔ t.IsPlainClass c
  get : ∀ c, t.IsPlainClass c → t'.get c = t.get c
  variance : ∀ c, t.IsPlainClass c → ∀ p ∈ t.tparams c, (t'.get p).variance = (t.get p).variance

namespace Agrees

variable (h : t.Agrees t')
include h

theorem tparams_eq (hc : t.IsPlainClass c) : t'.tparams c = t.tparams c := by
  rw [tparams, h.get c hc, tparams]

theorem symm : t'.Agrees t where
  package p := (h.package p).symm
  plain c := (h.plain c).symm
  get c hc := (h.get c ((h.plain c).1 hc)).symm
  variance c hc p hp := by
    have hc := (h.plain c).1 hc
    exact (h.variance c hc p (h.tparams_eq hc ▸ hp)).symm

theorem supers_eq (hc : t.IsPlainClass c) : t'.supers c = t.supers c := by
  rw [supers, h.get c hc, supers]

theorem parentStep_eq : t'.ParentStep = t.ParentStep := by
  funext c d
  refine propext ⟨fun ⟨hc, pre, args, mem⟩ => ?_, fun ⟨hc, pre, args, mem⟩ => ?_⟩
  · have hc := (h.plain c).1 hc
    exact ⟨hc, pre, args, h.supers_eq hc ▸ mem⟩
  · exact ⟨(h.plain c).2 hc, pre, args, h.supers_eq hc ▸ mem⟩

theorem derives_eq : t'.Derives = t.Derives := by
  unfold Derives
  rw [h.parentStep_eq]

theorem leadsTo_eq : t'.LeadsTo = t.LeadsTo := by
  funext d ty
  cases ty <;> simp only [LeadsTo, h.derives_eq]

theorem applied {pkg : SymbolId} {args : List Ty} (hl : t.Applied pkg c args) :
    t'.Applied pkg c args :=
  ⟨(h.package _).2 hl.package, (h.plain _).2 hl.plain, h.tparams_eq hl.plain ▸ hl.arity⟩

theorem classTerm {ps : List SymbolId} (term : t.ClassTerm ps ty) : t'.ClassTerm ps ty := by
  induction term with
  | param mem => exact .param mem
  | app package plain arity _ ih => exact ClassTerm.congruent (h.applied ⟨package, plain, arity⟩) ih

theorem joined (term : t.Joined ty) : t'.Joined ty := by
  induction term with
  | app applied _ ih => exact .app (h.applied applied) ih
  | meet _ ih => exact .meet ih

theorem nearest {d : SymbolId} {bs : List Ty} (found : t.Nearest d l bs) : t'.Nearest d l bs := by
  induction found with
  | here => exact .here
  | up other plain first _ ih =>
    refine .up other ((h.plain _).2 plain) ?_ (h.tparams_eq plain ▸ ih)
    rw [h.supers_eq plain, h.leadsTo_eq]
    exact first

theorem accepts (ht : t.Plain) (ht' : t'.Plain) {r : Ty}
    (accepted : t.Accepts l r) : t'.Accepts l r := by
  induction accepted with
  | nothing => exact .nothing
  | null plain admits =>
    refine .null ((h.plain _).2 plain) ?_
    rw [admitsNull_iff ht plain] at admits
    rwa [admitsNull_iff ht' ((h.plain _).2 plain), h.derives_eq]
  | @base _ _ d _ _ plain nearest len _ _ ihco ihcontra =>
    have param : ∀ {i : Nat} {p}, (t'.tparams d)[i]? = some p → (t.tparams d)[i]? = some p ∧
        (t'.get p).variance = (t.get p).variance := by
      intro i p hp
      rw [h.tparams_eq plain] at hp
      exact ⟨hp, h.variance _ plain p (List.mem_of_getElem? hp)⟩
    refine .base ((h.plain _).2 plain) (h.nearest nearest) len (fun i p a b hp ha hb hvar => ?_)
      fun i p a b hp ha hb hvar => ?_
    · exact ihco i p a b (param hp).1 ha hb ((param hp).2 ▸ hvar)
    · exact ihcontra i p a b (param hp).1 ha hb ((param hp).2 ▸ hvar)
  | all _ ih => exact .all ih
  | any mem _ ih => exact .any mem ih

theorem fueled {fuel : Nat} (fueled : Fueled t fuel) : Fueled t' fuel := by
  refine ⟨fueled.pos, fun c hc p hp => ?_⟩
  have hc := (h.plain c).1 hc
  exact fueled.parents c hc p (h.get c hc ▸ hp)

/-- Plainness speaks of plain classes only, and of `AnyRef`. -/
theorem plainTable (ht : t.Plain) (anyRef : t'.get Known.anyRef = t.get Known.anyRef)
    (linearized : ∀ c cs, t.IsPlainClass c → t'.linearization? c = some cs →
    ∀ d, d ∈ cs ↔ t.Derives c d) : t'.Plain where
  object := (h.plain _).2 ht.object
  object_tparams := (h.tparams_eq ht.object).trans ht.object_tparams
  javaLang := (h.package _).2 ht.javaLang
  anyRef_kind := by rw [kind, anyRef]; exact ht.anyRef_kind
  anyRef_tparams := by rw [tparams, anyRef]; exact ht.anyRef_tparams
  anyRef_info := by rw [info, anyRef]; exact ht.anyRef_info
  anyRef_owned := by rw [owner, anyRef]; exact (h.package _).2 ht.anyRef_owned
  parents c hc p hp := by
    have hc := (h.plain c).1 hc
    rw [h.get c hc] at hp
    obtain ⟨pkg, d, args, rfl, parent⟩ := ht.parents c hc p hp
    refine ⟨pkg, d, args, rfl, parent.imp (fun both => ⟨(h.package _).2 both.1, both.2⟩) fun term =>
      ?_⟩
    rw [h.tparams_eq hc]
    exact h.classTerm term
  bottom c d step := ht.bottom c d (h.parentStep_eq ▸ step)
  chains cs chain := ht.chains cs (h.parentStep_eq ▸ chain)
  remembers := ⟨rfl, fun c cs hc found => by
    rw [h.derives_eq]
    exact linearized c cs ((h.plain c).1 hc) found⟩

end Agrees

/-! ## Tables that have grown -/

/-- A plain table in which every symbol that a class declares is entered, with the top and the
bottom class. -/
structure Rooted (t : SymbolTable) : Prop where
  plain : t.Plain
  absent : t.kind .none = .absent
  tparams : ∀ c, t.IsPlainClass c → ∀ p ∈ t.tparams c, p.val < t.size
  scala : t.IsPackage Known.scalaClass
  any : t.IsPlainClass Known.any
  any_tparams : t.tparams Known.any = []
  nothing : t.IsPlainClass Known.nothing
  nothing_tparams : t.tparams Known.nothing = []

theorem Rooted.lt_size (ht : t.Rooted) (present : t.kind s ≠ .absent) : s.val < t.size := by
  by_contra unknown
  refine present ?_
  rw [kind, get_of_size_le (Nat.not_lt.1 unknown)]
  exact ht.absent

theorem Rooted.anyType (ht : t.Rooted) : t.ClassType Known.anyType :=
  .app ht.scala ht.any (by rw [ht.any_tparams]; rfl) (by simp)

theorem Rooted.nothingType (ht : t.Rooted) : t.ClassType Known.nothingType :=
  .app ht.scala ht.nothing (by rw [ht.nothing_tparams]; rfl) (by simp)

/-- `t'` is `t` with more symbols, none of them a class of a package, and what it remembers is
right. -/
structure Hosts (t t' : SymbolTable) : Prop where
  appended : Extends t.size t t'
  others : ∀ s, t.size ≤ s.val → t'.kind s ≠ .plainClass ∧ t'.kind s ≠ .packageClass
  linearized : ∀ c cs, t.IsPlainClass c → t'.linearization? c = some cs →
    ∀ d, d ∈ cs ↔ t.Derives c d

theorem Rooted.hosts (ht : t.Rooted) : t.Hosts t := by
  refine ⟨.refl _ _, fun s unknown => ?_, ht.plain.remembers.linearized⟩
  rw [kind, get_of_size_le unknown, show (t.get .none).kind = _ from ht.absent]
  decide

namespace Hosts

theorem get_eq (h : t.Hosts t') (hs : s.val < t.size) : t'.get s = t.get s := h.appended.get_eq hs

section Rooted

variable (ht : t.Rooted) (h : t.Hosts t')
include ht h

theorem agrees : t.Agrees t' := by
  have package : ∀ p, t'.IsPackage p ↔ t.IsPackage p := by
    intro p
    by_cases hp : p.val < t.size
    · have same := h.get_eq hp
      exact ⟨fun hp => ⟨by simpa [kind, same] using hp.kind, by simpa [flags, same] using hp.flag⟩,
        fun hp => ⟨by simpa [kind, same] using hp.kind, by simpa [flags, same] using hp.flag⟩⟩
    · refine ⟨fun package => absurd package.kind (h.others p (Nat.not_lt.1 hp)).2, fun package =>
        absurd (ht.lt_size ?_) hp⟩
      rw [package.kind]
      decide
  have lt_size : ∀ {c}, t.IsPlainClass c → c.val < t.size :=
    fun hc => ht.lt_size (by rw [hc.kind]; decide)
  refine ⟨package, fun c => ⟨fun hc => ?_, fun hc => ?_⟩, fun c hc =>
    h.get_eq (lt_size hc), fun c hc p hp => ?_⟩
  · have lt : c.val < t.size := by
      by_contra other
      exact (h.others c (Nat.not_lt.1 other)).1 hc.kind
    have same := h.get_eq lt
    exact ⟨hc.present, by simpa [kind, same] using hc.kind,
      (package _).1 (by simpa [owner, same] using hc.owned), hc.not_singleton, hc.not_notNull⟩
  · have same := h.get_eq (lt_size hc)
    exact ⟨hc.present, by simpa [kind, same] using hc.kind,
      (package _).2 (by simpa [owner, same] using hc.owned), hc.not_singleton, hc.not_notNull⟩
  · rw [h.get_eq (ht.tparams c hc p hp)]

theorem plain : t'.Plain := by
  refine (h.agrees ht).plainTable ht.plain (h.get_eq (ht.lt_size ?_)) h.linearized
  rw [ht.plain.anyRef_kind]
  nofun

theorem rooted : t'.Rooted where
  plain := h.plain ht
  absent := by
    have zero : SymbolId.none.val < t.size :=
      Nat.lt_of_le_of_lt (Nat.zero_le _) (ht.lt_size (s := Known.any) (by rw [ht.any.kind]; nofun))
    rw [kind, h.get_eq zero]
    exact ht.absent
  tparams c hc p hp := by
    have agrees := h.agrees ht
    have hc := (agrees.plain c).1 hc
    rw [agrees.tparams_eq hc] at hp
    exact Nat.lt_of_lt_of_le (ht.tparams c hc p hp) h.appended.size_le
  scala := ((h.agrees ht).package _).2 ht.scala
  any := ((h.agrees ht).plain _).2 ht.any
  any_tparams := ((h.agrees ht).tparams_eq ht.any).trans ht.any_tparams
  nothing := ((h.agrees ht).plain _).2 ht.nothing
  nothing_tparams := ((h.agrees ht).tparams_eq ht.nothing).trans ht.nothing_tparams

theorem remembers {t'' : SymbolTable} (h' : t'.Remembers t'') : t.Hosts t'' := by
  refine ⟨h.appended.trans (.of_records h'.records), fun s hs => ?_, fun c cs hc found => ?_⟩
  · rw [h'.kind_eq]
    exact h.others s hs
  · have agrees := h.agrees ht
    rw [← agrees.derives_eq]
    exact h'.linearized c cs ((agrees.plain c).2 hc) found

end Rooted

/-- A new symbol that is no class of a package. -/
theorem add (h : t.Hosts t') {r : SymbolRecord} (plain : r.kind ≠ .plainClass)
    (package : r.kind ≠ .packageClass) : t.Hosts (t'.add r) := by
  refine ⟨h.appended.trans (t'.extends_add h.appended.size_le r), fun s hs => ?_, h.linearized⟩
  rw [kind]
  obtain old | new := t'.get_add r s
  · rw [old]
    exact h.others s hs
  · rw [new]
    exact ⟨plain, package⟩

/-- What a new symbol is may be said later. -/
theorem setInfo (h : t.Hosts t') (hs : t.size ≤ s.val)
    (info : Ty) : t.Hosts (t'.setInfo s info) := by
  refine ⟨h.appended.trans (t'.extends_update hs fun _ => rfl), fun c hc => ?_, h.linearized⟩
  rw [kind, SymbolTable.setInfo]
  obtain old | new := t'.get_update s (fun r => { r with info }) c
  · rw [old]
    exact h.others c hc
  · rw [new]
    exact h.others c hc

end Hosts

end SymbolTable

end Conformance

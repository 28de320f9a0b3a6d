import Conformance.Proofs.Classes.Hosts
import Conformance.Proofs.Paths.Equivalence

/-! # Questions about class types that touch nothing

Queries about class types, and lookups for them, are asked on tables that have grown and in the
middle of solving. They touch no variable, and the table hosts the same classes afterwards. A query
for conformance answers `true` only to what is accepted, and one for equivalence only to types that
differ in prefixes at most. -/

namespace Conformance

open SymbolTable SymM CheckM

variable {t : SymbolTable} {α β : Type} {ok : Prop} {xs : List α} {f : α → CheckM Bool} {ty : Ty}

/-! ## Contracts on tables that grow -/

namespace SymM

/-- If `x` gives a result on a table that hosts `t`, the table still does and `P` holds of the
result. It fails only if `ok` does not hold. -/
abbrev Finds (t : SymbolTable) (ok : Prop) (x : SymM α) (P : α → Prop) : Prop :=
    Attains t.Hosts ok x P

theorem Finds.of_yields {x : SymM α} {P : α → Prop} (ht : t.Rooted)
    (h : ∀ t', t.Hosts t' → Yields t' ok x P) : Finds t ok x P := by
  intro t' ht'
  have found := h t' ht' t' (ht'.plain ht).remembers
  generalize x t' = r at found ⊢
  cases r with
  | ok a t'' => exact ⟨ht'.remembers ht found.1, found.2⟩
  | error e t'' => exact found

end SymM

namespace CheckM

/-- If `x` gives a result on a table that hosts `t`, with at most `n` levels left, it touches no
variable and `P` holds of the result. It fails only if `ok` does not hold. -/
abbrev Finds (t : SymbolTable) (n : Nat) (ok : Prop) (x : CheckM α) (P : α → Prop) : Prop :=
  Settles t.Hosts n ok x P fun _ => True

namespace Finds

variable {n : Nat} {ok : Prop} {x : CheckM α} {P Q : α → Prop} {s : CheckState}

theorem of_run (hx : Finds t n ok x P) (hs : t.Hosts s.table)
    (room : s.guard.maxDepth ≤ s.guard.depth + n) {a : α}
    {s' : CheckState} (run : x s = .ok a s') : Stays t.Hosts s s' ∧ P a := by
  have found := hx s hs room
  rw [run] at found
  exact ⟨found.1, found.2.1⟩

theorem pure {a : α} (h : P a) : Finds t n ok (Pure.pure a) P := Settles.pure h trivial

theorem imp (hx : Finds t n ok x P) (h : ∀ a, P a → Q a) : Finds t n ok x Q :=
    Settles.imp hx h fun _ _ => id

theorem bind {f : α → CheckM β} {Q : β → Prop} (hx : Finds t n ok x P)
    (hf : ∀ a, P a → Finds t n ok (f a) Q) : Finds t n ok (x >>= f) Q :=
    Settles.bind hx fun a ha => Settles.imp (hf a ha) (fun _ h => h) fun _ _ h _ => h

theorem ite {c : Prop} [Decidable c] {y : CheckM α} (hx : c → Finds t n ok x P)
    (hy : ¬ c → Finds t n ok y P) : Finds t n ok (if c then x else y) P := Settles.ite hx hy

theorem readTable : Finds t n ok CheckM.readTable t.Hosts := Settles.readTable

theorem onTable {x : SymM α} (hx : SymM.Finds t ok x P) : Finds t n ok (CheckM.onTable x) P :=
  Settles.onTable hx id fun _ _ => trivial

theorem of_settles (ht : t.Rooted) (h : ∀ t', t.Hosts t' → ∃ R, Settles t'.Remembers n ok x P R) :
    Finds t n ok x P := by
  intro s hs room
  obtain ⟨R, settles⟩ := h s.table hs
  have found := settles s (hs.plain ht).remembers room
  generalize x s = r at found ⊢
  cases r with
  | ok a s' =>
    exact ⟨{ found.1 with table := hs.remembers ht found.1.table }, found.2.1, .inr trivial⟩
  | error e s' => exact found

/-! ### Loops -/

theorem forM {f : α → CheckM PUnit} (h : ∀ a ∈ xs, Finds t n ok (f a) fun _ => True) :
    Finds t n ok (xs.forM f) fun _ => True := by
  induction xs with
  | nil => exact .pure trivial
  | cons a xs ih => exact (h a (by simp)).bind fun _ _ => ih fun a ha => h a (by simp [ha])

theorem anyM {A : α → Prop} (h : ∀ a ∈ xs, Finds t n ok (f a) fun b => b = true → A a) :
    Finds t n ok (xs.anyM f) fun b => b = true → ∃ a ∈ xs, A a := by
  induction xs with
  | nil => exact .pure nofun
  | cons a xs ih =>
    refine (h a (by simp)).bind fun b hb => ?_
    cases b with
    | true => exact .pure fun yes => ⟨a, by simp, hb yes⟩
    | false =>
      exact (ih fun a ha => h a (by simp [ha])).imp fun b hb yes =>
        List.exists_mem_cons_of_exists (hb yes)

theorem allM {A : α → Prop} (h : ∀ a ∈ xs, Finds t n ok (f a) fun b => b = true → A a) :
    Finds t n ok (xs.allM f) fun b => b = true → ∀ a ∈ xs, A a := by
  induction xs with
  | nil => exact .pure (by simp)
  | cons a xs ih =>
    refine (h a (by simp)).bind fun b hb => ?_
    cases b with
    | true =>
      exact (ih fun a ha => h a (by simp [ha])).imp fun b hb' yes =>
        List.forall_mem_cons.2 ⟨hb rfl, hb' yes⟩
    | false => exact .pure (fun h => nomatch h)

/-- What is dropped is dropped for a reason. -/
theorem filterM {D : α → Prop}
    (h : ∀ a ∈ xs, Finds t n ok (f a) fun b => b = false → D a) :
    Finds t n ok (xs.filterM f) fun ys => (∀ y ∈ ys, y ∈ xs) ∧ ∀ x ∈ xs, x ∈ ys ∨ D x := by
  have aux : ∀ zs : List α, (∀ z ∈ zs, z ∈ xs) → ∀ acc, (∀ y ∈ acc, y ∈ xs) →
      Finds t n ok (zs.filterAuxM f acc) fun ys =>
      (∀ y ∈ ys, y ∈ xs) ∧ (∀ y ∈ acc, y ∈ ys) ∧ ∀ z ∈ zs, z ∈ ys ∨ D z := by
    intro zs
    induction zs with
    | nil => exact fun _ acc hacc => .pure ⟨hacc, fun _ hy => hy, by simp⟩
    | cons z zs ih =>
      intro hzs acc hacc
      rw [List.forall_mem_cons] at hzs
      refine (h z hzs.1).bind fun b hb => ?_
      cases b with
      | true =>
        refine (ih hzs.2 (z :: acc) (List.forall_mem_cons.2 ⟨hzs.1, hacc⟩)).imp
          fun ys ⟨among, kept, rest⟩ => ?_
        rw [List.forall_mem_cons] at kept
        exact ⟨among, kept.2, List.forall_mem_cons.2 ⟨.inl kept.1, rest⟩⟩
      | false =>
        exact (ih hzs.2 acc hacc).imp fun ys ⟨among, kept, rest⟩ =>
          ⟨among, kept, List.forall_mem_cons.2 ⟨.inr (hb rfl), rest⟩⟩
  refine (aux xs (fun _ h => h) [] (by simp)).bind fun ys ⟨among, _, rest⟩ => .pure ?_
  simpa only [List.mem_reverse] using And.intro among rest

theorem findSomeM? {f : α → CheckM (Option β)} {P : β → Prop}
    (h : ∀ a ∈ xs, Finds t n ok (f a) fun r => ∀ b, r = some b → P b) :
    Finds t n ok (xs.findSomeM? f) fun r => ∀ b, r = some b → P b := by
  induction xs with
  | nil => exact .pure nofun
  | cons a xs ih =>
    refine (h a (by simp)).bind fun r hr => ?_
    cases r with
    | some b => exact .pure hr
    | none => exact ih fun a ha => h a (by simp [ha])

end Finds

end CheckM

/-! ## Queries -/

namespace SymbolTable

/-- What class types are compared with by equivalence: class types, and what stands for a type
parameter. -/
inductive Comparable (t : SymbolTable) : Ty → Prop where
  | closed {ty : Ty} (closed : t.ClassType ty) : Comparable t ty
  | param {pre : Ty} {s : SymbolId} (outer : pre = .noPrefix ∨ ∃ owner, pre = .this owner)
      (entered : s.val < t.size) (notAlias : (t.get s).isAliasType = false)
      (notClass : (t.get s).isClass = false) : Comparable t (.ref pre s [])
  | lambda {ps : List SymbolId} {result : Ty} : Comparable t (.poly ps result)

theorem ClassType.ground (h : t.ClassType ty) : t.Ground ty := by
  induction h with
  | param mem => cases mem
  | app _ plain arity _ ih => exact .ref trivial plain.static arity ih

end SymbolTable

/-- The same references but for their prefixes. -/
inductive Ty.Resembles : Ty → Ty → Prop where
  | refs {pre pre' : Ty} {c : SymbolId} {as bs : List Ty} (len : as.length = bs.length)
      (args : ∀ (i : Nat) a b, as[i]? = some a → bs[i]? = some b → Resembles a b) :
      Resembles (.ref pre c as) (.ref pre' c bs)

theorem SymbolTable.ClassType.resembles_self (h : t.ClassType ty) : ty.Resembles ty := by
  induction h with
  | param mem => cases mem
  | app _ _ _ _ ih =>
    refine .refs rfl fun i a b ha hb => ?_
    obtain rfl : a = b := Option.some.inj (ha.symm.trans hb)
    exact ih a (List.mem_of_getElem? ha)

/-- A parameter is its own expansion or a type lambda. -/
theorem expand_comparable {fuel : Nat} (hok : ok → 0 < fuel) (h : t.Comparable ty) :
    Yields t ok (expand fuel ty) fun norm => norm = ty ∨ ∃ ps result, norm = .poly ps result := by
  cases h with
  | closed closed => exact ((expand_yields closed.ground).of_ok hok).imp fun _ => .inl
  | lambda => exact .bind .get fun _ _ => .pure (.inl rfl)
  | @param pre s _ _ notAlias notClass =>
    refine .bind .get fun t' ht' => ?_
    have notRaw : ∀ {t'}, t.Remembers t' → t'.isRaw (.ref pre s []) = false := fun ht' => by
      rw [SymbolTable.isRaw, ht'.get_eq, notClass]
      rfl
    rw [notRaw ht', if_neg Bool.false_ne_true]
    show Yields t _ (normalizeUpTo fuel (127 + 1) _) _
    unfold normalizeUpTo
    refine (record_yields s).bind fun r hr => ?_
    rw [hr, notAlias, if_neg Bool.false_ne_true]
    cases tparams : (t.get s).tparams with
    | nil => exact .pure (.inl rfl)
    | cons p ps =>
      refine .bind .get fun t'' ht'' => ?_
      rw [notRaw ht'']
      exact .bind .get fun _ _ => .pure (.inr ⟨_, _, rfl⟩)

/-- Queries for equivalence touch nothing where class types are compared. -/
def Queries.Alike (t : SymbolTable) (n : Nat) (ok : Prop) (q : Queries) : Prop :=
  ∀ a b, t.ClassType a → t.Comparable b → Settles t.Remembers n ok (q.same a b)
    (fun r => r = true → a.Resembles b) fun _ => True

section Alike

variable {n : Nat} {ok : Prop} {cfg : Config} {q : Queries}
  {a b : Ty} (hok : ok → 0 < cfg.fuel) (hq : q.Alike t n ok) (ha : t.ClassType a)
include hok hq ha

theorem sameShape_alike (hb : t.Comparable b) : Settles t.Remembers n ok (sameShape cfg q a b)
    (fun r => r = some true → a.Resembles b) fun _ => True := by
  obtain ⟨pkg, c, as, rfl⟩ := ha.shape
  have owned := ha.isPlainClass.owned
  have rigid : t.IsRigid (.this pkg) := trivial
  cases hb with
  | lambda => exact .pure nofun trivial
  | @param pre s outer _ _ notClass =>
    have rigid' : t.IsRigid pre := by
      obtain rfl | ⟨owner, rfl⟩ := outer <;> trivial
    refine (sameEntity_settles hok Remembers.get_eq rigid rigid' owned).bind fun same hsame => ?_
    have other : same = false := by
      rw [hsame, decide_eq_false_iff_not]
      rintro rfl
      rw [ha.isPlainClass.isClass] at notClass
      cases notClass
    rw [other]
    exact .pure nofun fun _ => trivial
  | closed hb =>
    obtain ⟨pkg', d, bs, rfl⟩ := hb.shape
    have each : ∀ a ∈ as, ∀ b ∈ bs, Decided t n ok (q.same a b) (a.Resembles b) False :=
      fun a mem b mem' =>
      (hq a b (ha.arg mem) (.closed (hb.arg mem'))).imp (fun _ h => h) fun _ _ _ h => h.elim
    have args := sameAll_settles each
    unfold sameShape
    have rigid' : t.IsRigid (.this pkg') := trivial
    refine (sameEntity_settles hok Remembers.get_eq rigid rigid' owned).bind fun same hsame => ?_
    by_cases eq : c = d
    · subst eq
      simp only [hsame, decide_true, Bool.not_true, Bool.false_eq_true, if_false]
      refine .bind .readTable fun t' _ => ?_
      split
      · next bare =>
        simp only [Bool.and_eq_true, List.isEmpty_iff] at bare
        obtain ⟨⟨rfl, rfl⟩, -⟩ := bare
        exact .pure (fun _ => .refs rfl nofun) fun _ _ => trivial
      · refine args.bind fun r hr => .pure (fun yes => ?_) fun _ _ _ => trivial
        cases r with
        | true => exact .refs (hr rfl).1 (hr rfl).2
        | false => cases yes
    · simp only [hsame, eq, decide_false, Bool.not_false, if_true]
      exact .pure nofun fun _ => trivial

theorem sameExpanded_alike (hb : t.Comparable b) : Settles t.Remembers n ok (sameExpanded cfg q a b)
    (fun r => r = true → a.Resembles b) fun _ => True := by
  unfold sameExpanded
  refine .bind (.onTable (Q := fun _ => True) ((expand_yields ha.ground).of_ok hok) id fun _ _ =>
    trivial) fun norm1 h1 => ?_
  refine .bind (.onTable (Q := fun _ => True) (expand_comparable hok hb) id fun _ _ =>
    trivial) fun norm2 h2 => ?_
  subst h1
  obtain rfl | ⟨ps, result, rfl⟩ := h2
  · rw [if_pos (by simp)]
    exact .pure nofun fun _ _ => trivial
  · split
    · exact .pure nofun fun _ _ => trivial
    · exact (hq norm1 _ ha .lambda).imp (fun _ h yes => nomatch h yes) fun _ _ _ _ _ => trivial

theorem sameStep_alike (hb : t.Comparable b) : Settles t.Remembers n ok (sameStep cfg q a b)
    (fun r => r = true → a.Resembles b) fun _ => True := by
  have shape := sameShape_alike hok hq ha hb
  have expanded := sameExpanded_alike hok hq ha hb
  have self := ha.resembles_self
  obtain ⟨pkg, c, as, rfl⟩ := ha.shape
  have simple : b.isPresent = true ∧ b ≠ .noPrefix ∧ b.isPermissive = false ∧ sameOtherwise
      cfg q (.ref (.this pkg) c as) b = sameExpanded cfg q (.ref (.this pkg) c as) b := by
    cases hb with
    | closed hb =>
      obtain ⟨pkg', d, bs, rfl⟩ := hb.shape
      exact ⟨rfl, nofun, rfl, rfl⟩
    | param => exact ⟨rfl, nofun, rfl, rfl⟩
    | lambda => exact ⟨rfl, nofun, rfl, rfl⟩
  obtain ⟨present, prefixed, permissive, otherwise⟩ := simple
  unfold sameStep
  split
  · next same =>
    have permissive' : Ty.isPermissive (.ref (.this pkg) c as) = false := rfl
    simp only [permissive, permissive', Bool.or_false, decide_eq_true_eq] at same
    exact .pure (fun _ => same ▸ self) trivial
  have present' : Ty.isPresent (.ref (.this pkg) c as) = true := rfl
  simp only [present, present', Bool.not_true, Bool.or_self,
    Bool.false_eq_true, if_false, reduceCtorEq]
  refine shape.bind fun verdict hverdict => ?_
  cases verdict with
  | some answer => exact .pure (fun yes => hverdict (congrArg some yes)) fun _ => trivial
  | none =>
    rw [otherwise]
    exact expanded.imp (fun _ h => h) fun _ _ _ _ => trivial

end Alike

theorem Config.queriesUpTo_alike (cfg : Config) (n : Nat) :
    (cfg.queriesUpTo n).Alike t n (0 < cfg.fuel) := by
  induction n with
  | zero => exact fun a b _ _ => .query Guard.admits_enterUntracked _ _ nofun fun _ h => nomatch h
  | succ n ih =>
    intro a b ha hb
    refine .query Guard.admits_enterUntracked _ _ nofun fun m h => ?_
    obtain rfl : n = m := by simpa using h
    exact sameStep_alike id ih ha hb

/-- What is asked where bounds are sought: queries for class types, which touch nothing. -/
structure Queries.Serve (t : SymbolTable) (n : Nat) (ok : Prop) (q : Queries) : Prop where
  sub : ∀ a b, t.Joined a → t.Joined b → Finds t n ok (q.sub a b .unlimited) fun r =>
    r = true → t.Accepts a b
  same : ∀ a b, t.ClassType a → t.Comparable b → Finds t n ok (q.same a b) fun r =>
    r = true → a.Resembles b

theorem SymbolTable.Hosts.comparable {t' : SymbolTable} (ht : t.Rooted) (h : t.Hosts t')
    (hty : t.Comparable ty) : t'.Comparable ty := by
  cases hty with
  | closed closed => exact .closed ((h.agrees ht).classTerm closed)
  | lambda => exact .lambda
  | param outer entered notAlias notClass =>
    rw [← h.get_eq entered] at notAlias notClass
    exact .param outer (Nat.lt_of_lt_of_le entered h.appended.size_le) notAlias notClass

theorem Config.queriesUpTo_serve (cfg : Config) (ht : t.Rooted)
    (hok : ok → Fueled t cfg.fuel) (n : Nat) : (cfg.queriesUpTo n).Serve t n ok where
  sub a b ha hb := by
    refine .of_settles ht fun t' ht' => ?_
    have agrees := ht'.agrees ht
    have plain := ht'.plain ht
    have decided := cfg.queriesUpTo_accept plain n a b (agrees.joined ha)
      (agrees.joined hb) .unlimited
    exact ⟨_, (Settles.of_ok decided fun h => agrees.fueled (hok h)).imp
      (fun r accepted yes => agrees.symm.accepts plain ht.plain (accepted yes)) fun _ _ h => h⟩
  same a b ha hb := .of_settles ht fun t' ht' =>
    ⟨_, (cfg.queriesUpTo_alike n a b ((ht'.agrees ht).classTerm ha) (ht'.comparable ht hb)).of_ok
      fun h => (hok h).pos⟩

end Conformance

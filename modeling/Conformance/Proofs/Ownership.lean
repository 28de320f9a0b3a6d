import Conformance.Proofs.Linearizations
import Conformance.Proofs.Nesting

/-! # Owners come before what they own

Symbols are entered by declarations and in the middle of questions: skolems under a common owner,
copies of members under a new class, quantifiers of raw types. Each gets an owner that was there
before it, so owners form a forest and the walk along them ends. -/

namespace Conformance

namespace SymbolTable

/-- The owner of a symbol was entered before it; the absent symbol owns itself. -/
def OwnersFirst (t : SymbolTable) : Prop :=
  Known.count ≤ t.size ∧ ∀ (i : Nat) (r : SymbolRecord), t.records[i]? = some r →
    r.owner.val ≤ i - 1

theorem ownersFirst_owns : Scope.entered.Owns OwnersFirst := by
  intro t t' _ ⟨known, first⟩ grows
  have kept : ∀ i < t.size, ∃ r r', t.records[i]? = some r ∧
    t'.records[i]? = some r' ∧ r'.owner = r.owner := by
    intro i hi
    obtain ⟨r, hr⟩ : ∃ r, t.records[i]? = some r := ⟨_, Array.getElem?_eq_getElem hi⟩
    have same := grows.kept hi
    rw [hr] at same
    obtain ⟨r', hr', owner⟩ := Option.map_eq_some_iff.1 same
    exact ⟨r, r', hr, hr', owner⟩
  refine ⟨Nat.le_of_not_lt fun less => ?_, fun i r' hr' => ?_⟩
  · obtain ⟨_, r', -, hr', -⟩ := kept t'.size (Nat.lt_of_lt_of_le less known)
    exact Nat.lt_irrefl _ (Array.getElem?_eq_some_iff.1 hr').1
  · by_cases hi : i < t.size
    · obtain ⟨r, r1, hr, hr1, owner⟩ := kept i hi
      obtain rfl : r' = r1 := Option.some.inj (hr'.symm.trans hr1)
      exact owner ▸ first i r hr
    · have size : Known.count ≤ i := Nat.le_trans known (Nat.le_of_not_lt hi)
      exact Nat.le_sub_one_of_lt (Scope.lt_of_entered size (grows.new (Nat.le_of_not_lt hi) hr'))

/-- What sessions keep. -/
structure Orderly (t : SymbolTable) : Prop where
  closed : Scope.entered.Closed t
  first : t.OwnersFirst
  ids {i : Nat} : i < t.size → (t.records[i]?).map (·.id) = some ⟨i⟩

namespace Orderly

variable {t t' : SymbolTable} (h : t.Orderly)
include h

theorem next {b : Nat} (closed : Scope.entered.Closed t')
    (grown : t.Extends b t') (first : t'.OwnersFirst) : t'.Orderly := by
  refine ⟨closed, first, fun {i} hi => ?_⟩
  by_cases old : i < t.size
  · rw [grown.ids old]
    exact h.ids old
  · exact grown.new (Nat.le_of_not_lt old) hi

theorem add {r : SymbolRecord} (owner : r.owner.val < t.size)
    (hr : Scope.entered.Fits (t.size + 1) r) : (t.add r).Orderly :=
  h.next (h.closed.add ⟨hr.owner, hr.tparams, hr.info, hr.parents, hr.decls, hr.companion⟩)
    (t.extends_add (Nat.le_refl _) r) (ownersFirst_owns h.closed h.first (.add (.inl owner)))

theorem update (s : SymbolId) {f : SymbolRecord → SymbolRecord}
    (hf : ∀ r, Scope.entered.Fits t.size r → Scope.entered.Fits t.size (f r))
    (id : ∀ r, (f r).id = r.id) (owner : ∀ r, (f r).owner = r.owner) : (t.update s f).Orderly := by
  refine h.next (h.closed.update s hf) (t.extends_update (Nat.zero_le _) id)
    (ownersFirst_owns h.closed h.first ?_)
  refine .of_size (t.size_update s f) fun i => ?_
  rw [getElem?_update]
  split
  · cases t.records[i]? <;> simp [owner]
  · rfl

theorem forget : ({ t with linearized := [] } : SymbolTable).Orderly :=
  ⟨⟨h.closed.base, h.closed.records, fun mem => nomatch mem⟩, h.first, h.ids⟩

theorem owner_le (s : SymbolId) : (t.owner s).val ≤ s.val - 1 := by
  rw [owner, get_eq_getD]
  cases read : t.records[s.val]? with
  | some r => exact h.first.2 _ r read
  | none =>
    -- an unknown symbol is read as the absent one
    cases root : t.records[0]? with
    | some r => exact Nat.le_trans (h.first.2 0 r root) (Nat.zero_le _)
    | none => exact Nat.zero_le _

theorem ownersEnd : t.OwnersEnd := by
  have descends : ∀ n s, (t.owner^[n] s).val ≤ s.val - n := by
    intro n
    induction n with
    | zero => exact fun _ => Nat.le_refl _
    | succ n ih =>
      intro s
      have := ih (t.owner s)
      have := h.owner_le s
      rw [Function.iterate_succ_apply]
      omega
  intro s
  have last := descends s.val s
  rw [Nat.sub_self] at last
  exact ⟨s.val, congrArg SymbolId.mk (Nat.le_zero.1 last)⟩

end Orderly

/-- What is bounded by variables is declared, and owners come first. -/
theorem instantiating_orderly : Instantiating .entered (fun _ => True)
    (fun t vars => VarsEntered t vars ∧ t.OwnersFirst) OwnersFirst where
  owns := ownersFirst_owns
  table h := h.2
  grow ht h grown ht' first := ⟨instantiating_entered.grow ht h.1 grown ht' trivial, first⟩
  info h := instantiating_entered.info h.1
  bound side ht h hv hi hty admissible := ⟨instantiating_entered.bound side ht h.1 hv hi hty
    (admissible.imp_right (·.imp fun _ _ => And.left)), h.2⟩
  inst ht h hv hi hty admissible := ⟨instantiating_entered.inst ht h.1 hv hi hty
    (admissible.imp_right (·.imp fun _ _ => And.left)), h.2⟩
  fresh level ht h horigin :=
    have added := instantiating_entered.fresh level ht h.1 horigin
    ⟨⟨added.1, h.2⟩, added.2⟩

/-! ## Sessions -/

/-- One turn of a session: a declaration that names what is declared by then and enters symbols
under declared owners, or a question about what is declared, asked of a checker whose variables hold
what is declared or of the table. -/
inductive Turn : SymbolTable → SymbolTable → Prop
  | add {t : SymbolTable} {r : SymbolRecord} (owner : r.owner.val < t.size)
    (hr : Scope.entered.Fits (t.size + 1) r) : Turn t (t.add r)
  | setInfo {t : SymbolTable} {info : Ty} (s : SymbolId)
    (hinfo : Scope.entered.In t.size info) : Turn t (t.setInfo s info)
  | setTParams {t : SymbolTable} {ps : List SymbolId}
    (s : SymbolId) (hps : Scope.entered.In t.size ps) : Turn t (t.setTParams s ps)
  | setFlags (t : SymbolTable) (s : SymbolId) (flags : Flags) : Turn t (t.setFlags s flags)
  | setParents {t : SymbolTable} {parents : List Ty}
    (s : SymbolId) (hparents : Scope.entered.In t.size parents) : Turn t (t.setParents s parents)
  | addDecl {t : SymbolTable} {member : SymbolId} (cls : SymbolId)
    (hmember : Scope.entered.In t.size member) : Turn t (t.addDecl cls member)
  | setCompanion {t : SymbolTable} {companion : SymbolId} (s : SymbolId)
    (hcompanion : Scope.entered.In t.size companion) : Turn t (t.update s ({ · with companion }))
  | check (cfg : Config) (ha : cfg.annotations.Keeping .entered OwnersFirst)
    (op : Operation) (s : CheckState) (hop : op.Names s.table.size)
    (hvars : VarsEntered s.table s.vars.vars) : Turn s.table ((cfg.run op).after s).table
  | ask (fuel : Nat) (op : TypeOperation) {t : SymbolTable}
    (hop : op.Within .entered t.size) : Turn t ((op.run fuel).after t)

theorem Turn.orderly {t t' : SymbolTable} (h : t.Orderly) (turn : t.Turn t') : t'.Orderly := by
  cases turn with
  | add owner hr => exact h.add owner hr
  | setInfo s hinfo =>
    exact h.update s (fun _ hr => ⟨hr.owner, hr.tparams, hinfo, hr.parents, hr.decls, hr.companion⟩)
      (fun _ => rfl) fun _ => rfl
  | setTParams s hps =>
    exact h.update s (fun _ hr => ⟨hr.owner, hps, hr.info, hr.parents, hr.decls, hr.companion⟩)
      (fun _ => rfl) fun _ => rfl
  | setFlags _ s flags =>
    exact h.update s (fun _ hr => ⟨hr.owner, hr.tparams,
      hr.info, hr.parents, hr.decls, hr.companion⟩) (fun _ => rfl) fun _ => rfl
  | @setParents _ parents s hparents =>
    have written := h.update s (f := ({ · with parents })) (fun _ hr =>
      ⟨hr.owner, hr.tparams, hr.info, hparents, hr.decls, hr.companion⟩) (fun _ => rfl) fun _ => rfl
    exact written.forget
  | addDecl cls hmember =>
    unfold SymbolTable.addDecl
    split
    · refine h.update cls (fun r hr =>
        ⟨hr.owner, hr.tparams, hr.info, hr.parents, ?_, hr.companion⟩) (fun _ => rfl) fun _ => rfl
      rw [Array.toList_push]
      exact hr.decls.append (.cons hmember .nil)
    · exact h
  | setCompanion s hcompanion =>
    exact h.update s (fun _ hr => ⟨hr.owner, hr.tparams, hr.info, hr.parents, hr.decls, fun _ =>
      hcompanion⟩) (fun _ => rfl) fun _ => rfl
  | check cfg ha op s hop hvars =>
    cases hask : op.isQuestion with
    | true =>
      have step := Config.run_onward instantiating_orderly
        ha hop.within (fun _ _ => ⟨trivial, trivial⟩) hask h.closed ⟨hvars, h.first⟩
      exact h.next step.closed step.grown step.holds.2
    | false =>
      cases op with
      | freshVar | suspend | resume | resetStats => exact h
      | _ => cases hask
  | ask fuel op hop =>
    have asked := op.run_keeping (b := t.size) ownersFirst_owns fuel hop
    have run := asked.safe t h.closed (Nat.le_refl _) (Nat.le_refl _)
    have first := asked.keeps h.closed (Nat.le_refl _) (Nat.le_refl _) h.first
    unfold SymM.after at first ⊢
    generalize op.run fuel t = result at run first ⊢
    cases result with
    | ok a t' => exact h.next run.1 run.2.1 first
    | error e t' => exact h.next run.1 run.2 first

theorem orderly_initial : initial.Orderly := by
  have start : ∀ i < initial.size, (initial.get ⟨i⟩).owner.val ≤ i - 1 := by decide +kernel
  have standalone := Declared.initial.standalone
  have read : ∀ {i r}, initial.records[i]? = some r → initial.get ⟨i⟩ = r := fun hr => by
    rw [get_eq_getD, hr]
    rfl
  refine ⟨standalone.closed, ⟨standalone.known, fun i r hr => ?_⟩, fun {i} hi => ?_⟩
  · exact read hr ▸ start i (Array.getElem?_eq_some_iff.1 hr).1
  · have hr : initial.records[i]? = some initial.records[i] := Array.getElem?_eq_getElem hi
    rw [hr, ← read hr]
    exact congrArg some (standalone.ids i hi)

/-- After any session every symbol but the absent one has an owner with a smaller identifier and a
record with its own one; so owners lead to the absent symbol, walks along them meet all owners, and
nesting is a partial order. -/
theorem owners_form_a_forest {t : SymbolTable} (turns : Relation.ReflTransGen Turn initial t) :
    (∀ s : SymbolId, 0 < s.val → s.val < t.size → (t.owner s).val < s.val) ∧
    (∀ s : SymbolId, s.val < t.size → (t.get s).id = s) ∧
    t.OwnersEnd ∧ (∀ s, ∀ c ∈ t.ownerChain s, t.owner c = .none ∨ t.owner c ∈ t.ownerChain s) ∧
    (∀ s, t.isNestedIn s s = true) ∧
    (∀ a b c, t.isNestedIn a b = true → t.isNestedIn b c = true → t.isNestedIn a c = true) ∧
    ∀ a b, t.isNestedIn a b = true → t.isNestedIn b a = true → a = b := by
  have h : t.Orderly := by
    induction turns with
    | refl => exact orderly_initial
    | tail _ turn ih => exact turn.orderly ih
  refine ⟨fun s pos _ => ?_, fun s hs => ?_, h.ownersEnd, fun s c mem =>
    ?_, isNestedIn_refl, fun _ _ _ => isNestedIn_trans, fun _ _ => isNestedIn_antisymm h.ownersEnd⟩
  · have := h.owner_le s
    omega
  · obtain ⟨r, hr, id⟩ := Option.map_eq_some_iff.1 (h.ids hs)
    rw [get_eq_getD, hr]
    exact id
  · obtain ⟨i, -, rfl, before⟩ := mem_ownersUpTo.1 mem
    rw [← Function.iterate_succ_apply' t.owner]
    cases present : (t.owner^[i + 1] s).isPresent with
    | false => exact .inl (isPresent_eq_false.1 present)
    | true =>
      refine .inr
        (mem_ownerChain (n := i + 2) (mem_ownersUpTo.2 ⟨i + 1, by omega, rfl, fun j hj => ?_⟩))
      by_cases last : j = i + 1
      · exact last ▸ present
      · exact before j (by omega)

/-- A quantifier is bounded, then a checker opens an existential over it. -/
theorem skolems_come_after_their_owners :
    let cfg : Config := ⟨{}, .typeConstraints, 9⟩
    let quantifier : SymbolRecord :=
      { id := .none, name := "q", owner := Known.scalaClass, kind := .abstractType
        flags := .ofList [.deferred, .existential] }
    let q : SymbolId := ⟨Known.count⟩
    let t := (SymbolTable.initial.add quantifier).setInfo
      q (.bounds Known.nothingType Known.anyType)
    let opened : Operation := .isSubtype (.exist [q] (.ref .noPrefix q [])) Known.anyType
    let t' := ((cfg.run opened).after (.fresh cfg.policy t 0 #[])).table
    Relation.ReflTransGen Turn initial t' ∧ t.size < t'.size ∧
      ∀ s : SymbolId, 0 < s.val → s.val < t'.size → (t'.owner s).val < s.val := by
  intro cfg quantifier q t opened t'
  have keeping : cfg.annotations.Keeping .entered OwnersFirst := fun _ _ =>
    ⟨.get_bind fun _ _ _ _ => .pure fun _ _ => trivial, fun _ _ _ first => first⟩
  have check : t.Turn t' := .check cfg keeping opened (.fresh cfg.policy t 0 #[])
    (by decide +kernel) fun _ _ hi => by cases hi
  have turns : Relation.ReflTransGen Turn initial t' :=
    .tail (.tail (.single (.add (by decide +kernel) (by decide +kernel)))
      (.setInfo q (by decide +kernel))) check
  exact ⟨turns, by decide +kernel, (owners_form_a_forest turns).1⟩

/-- If the right-hand side of an alias names a symbol that is not there, a skolem is owned by it. -/
theorem skolem_owned_by_unknown_symbol :
    let id (i : Nat) : SymbolId := ⟨Known.count + i⟩
    let declare : SymM Unit := do
      let synonym ← SymM.newAliasType Known.scalaClass "T"
      SymM.setInfo synonym (.this ⟨999⟩)
      let _ ← SymM.newExistential Known.scalaClass "q"
    let t := declare.after .initial
    let opened := TypeOperation.skolemize (.exist [id 1] (Known.scalaRef (id 0))) 0
    let t' := (opened.run 9).after t
    opened.Within .entered t.size ∧ (id 2).val < t'.size ∧ t'.owner (id 2) = ⟨999⟩ := by
  intro id declare t opened t'
  have within :
    Scope.entered.In t.size (Ty.exist [id 1] (Known.scalaRef (id 0))) := by decide +kernel
  exact ⟨within, by decide +kernel, by decide +kernel⟩

end SymbolTable

end Conformance

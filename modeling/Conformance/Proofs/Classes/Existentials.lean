import Conformance.Proofs.Backtracking
import Conformance.Proofs.Classes.Solving
import Conformance.Proofs.Expansion

/-! # Accepted existentials have a witness

A class type is compared with an existential by variables for copies of its quantifiers. If the
answer is `true`, the types that the variables were solved to are within the bounds of the
quantifiers, and the class type is accepted by the body with these types for the quantifiers. -/

namespace Conformance

variable {α β : Type} {s s' : CheckState} {args tvars : List Ty}
  {vs : List VarId} {c pkg : SymbolId}

open SymbolTable SymM CheckM SolveM

variable {t t' t'' : SymbolTable} {qs cs : List SymbolId}

/-! ## Copies of quantifiers -/

theorem forall₂_trans {γ : Type} {R : α → β → Prop} {S : β → γ → Prop} {T : α → γ → Prop}
    {as : List α} {bs : List β} {cs : List γ} (h : List.Forall₂ R as bs) (h' : List.Forall₂ S bs cs)
    (step : ∀ {a b c}, R a b → S b c → T a c) : List.Forall₂ T as cs := by
  induction h generalizing cs with
  | nil =>
    cases h'
    exact .nil
  | cons first _ ih =>
    cases h' with
    | cons first' rest => exact .cons (step first first') (ih rest)

namespace SymbolTable

theorem Hosts.trans (ht : t.Rooted) (h : t.Hosts t') (h' : t'.Hosts t'') : t.Hosts t'' := by
  refine ⟨h.appended.next h'.appended, fun s hs => ?_, fun c cs hc found => ?_⟩
  · by_cases old : s.val < t'.size
    · rw [kind, h'.get_eq old]
      exact h.others s hs
    · exact h'.others s (Nat.not_lt.1 old)
  · have agrees := h.agrees ht
    rw [← agrees.derives_eq]
    exact h'.linearized c cs ((agrees.plain c).2 hc) found

/-- `c` is a copy of `q`, in the table `t'`. -/
structure IsCopy (t t' : SymbolTable) (q c : SymbolId) : Prop where
  kind : t'.kind c = t.kind q
  info : t'.info c = t.info q

theorem IsCopy.later {q : SymbolId} (h : t.IsCopy t' q c)
    (same : t''.get c = t'.get c) : t.IsCopy t'' q c :=
  ⟨by rw [SymbolTable.kind, same]; exact h.kind, by rw [SymbolTable.info, same]; exact h.info⟩

theorem clone_copies (ht : t.Rooted) (h : t.Hosts t')
    (quantifiers : ∀ q ∈ qs, t.IsQuantifier q) (run : qs.mapM SymM.cloneSymbol t' = .ok cs t'') :
    t.Hosts t'' ∧ List.Forall₂ (t.IsCopy t'') qs cs ∧ cs.Nodup := by
  have cloned : SymM.Attains t.Hosts True (qs.mapM SymM.cloneSymbol)
    (List.Forall₂ (fun _ _ => True) qs) := by
    refine .mapM fun q mem t1 h1 => ?_
    have other : t1.kind q ≠ .plainClass ∧ t1.kind q ≠ .packageClass := by
      rw [kind, h1.get_eq ((quantifiers q mem).entered ht)]
      obtain kind | kind := (quantifiers q mem).kind <;>
        rw [show (t.get q).kind = _ from kind] <;> decide
    exact ⟨h1.add other.1 other.2, trivial⟩
  have hosts := cloned t' h
  rw [run] at hosts
  obtain ⟨_, run', -, -, records⟩ := mapM_enters (t := t') (R := fun q _ r =>
    r.kind = t.kind q ∧ r.info = t.info q) fun q (mem : q ∈ qs) t1 h1 => ⟨t1.get q, rfl, fun _ => by
      rw [(h.appended.next h1).get_eq ((quantifiers q mem).entered ht)]
      exact ⟨rfl, rfl⟩⟩
  cases run.symm.trans run'
  exact ⟨hosts.1, records.imp fun _ _ copy => ⟨copy.1, copy.2⟩, t'.nextIds_nodup _⟩

theorem setInfo_self (hc : c.val < t.size) : t.setInfo c (t.info c) = t := by
  have same : (t.setInfo c (t.info c)).records = t.records := by
    apply Array.ext_getElem?
    intro i
    rw [setInfo, getElem?_update]
    split
    · rename_i eq
      subst eq
      obtain ⟨r, hr⟩ : ∃ r, t.records[c.val]? = some r := ⟨_, Array.getElem?_eq_getElem hc⟩
      rw [info, get_eq_getD, hr]
      rfl
    · rfl
  have rest : ∀ r : Array SymbolRecord, r = t.records → { t with records := r } = t := by
    rintro _ rfl
    rfl
  exact rest _ same

end SymbolTable

/-- No quantifier is a class or a package. -/
def SymbolTable.Outside (t : SymbolTable) (qs : List SymbolId) : Prop :=
    ∀ q ∈ qs, ¬ t.IsPlainClass q ∧ ¬ t.IsPackage q

theorem renamedSymbol_other {s : SymbolId} {ok : Prop}
    (h : s ∉ qs) : Yields t ok (renamedSymbol? qs cs s) (· = none) := by
  rw [renamedSymbol?_of_notMem h]
  exact .pure rfl

theorem renamedSymbol_mem {s : SymbolId} {ok : Prop} (mem : s ∈ qs)
    (hc : cs[qs.idxOf s]? = some c) : Yields t ok (renamedSymbol? qs cs s) (· = some c) := by
  rw [renamedSymbol?_of_mem mem hc]
  exact .pure rfl

/-- Renaming quantifiers is instantiation with references to the new names. -/
theorem substSym_yields {g : Ty} (h : t.ClassTerm qs g) (len : cs.length = qs.length)
    (outside : t.Outside qs) (fuel : Nat) : Yields t False (substSym fuel qs cs g)
    (· = g.inst qs (cs.map fun c => .ref .noPrefix c [])) := by
  induction fuel generalizing g with
  | zero => exact .fail id
  | succ fuel ih =>
    unfold substSym
    split
    · next empty =>
      have none : qs = [] := by
        cases h <;> simpa [Ty.isSentinel] using empty
      subst none
      exact .pure (ClassType.inst_eq h).symm
    · cases h with
      | @param p mem =>
        have lt : qs.idxOf p < cs.length := len ▸ List.idxOf_lt_length_of_mem mem
        have hc := List.getElem?_eq_getElem lt
        refine (renamedSymbol_mem mem hc).bind fun r hr => ?_
        subst hr
        have outer : Yields t False (substSym fuel qs cs .noPrefix) (· = .noPrefix) := by
          cases fuel with
          | zero => exact .fail id
          | succ fuel =>
            unfold substSym
            rw [if_pos (by simp [Ty.isSentinel])]
            exact .pure rfl
        refine outer.bind fun pre hpre => .bind (.pure rfl) fun args hargs => .pure ?_
        subst hpre hargs
        exact (Ty.inst_param (by simp [hc]) mem).symm
      | @app pkg c as package plain arity terms =>
        refine (renamedSymbol_other fun mem => (outside c mem).1 plain).bind fun r hr => ?_
        subst hr
        have outer : Yields t False (substSym fuel qs cs (.this pkg)) (· = .this pkg) := by
          cases fuel with
          | zero => exact .fail id
          | succ fuel =>
            unfold substSym
            split
            · exact .pure rfl
            · refine (renamedSymbol_other fun mem => (outside pkg mem).2 package).bind fun r hr =>
                ?_
              subst hr
              exact .pure rfl
        refine outer.bind fun pre hpre => (Attains.mapM_eq fun a ha => ih (terms a ha)).bind
          fun as' has' => .pure ?_
        rw [Ty.inst_app, hpre, has']
        split
        · next eq => rw [eq.2]
        · rfl

theorem substSym_closed {ty : Ty} (h : t.ClassType ty) (len : cs.length = qs.length)
    (outside : t.Outside qs) (fuel : Nat) : Yields t False (substSym fuel qs cs ty) (· = ty) :=
  (substSym_yields h.term len outside fuel).imp fun _ eq => eq.trans h.inst_eq

theorem SymM.Attains.forM {f : α → SymM PUnit} {xs : List α} {ok : Prop}
    (h : ∀ a ∈ xs, Yields t ok (f a) fun _ => True) : Yields t ok (xs.forM f) fun _ => True := by
  induction xs with
  | nil => exact .pure trivial
  | cons a xs ih => exact (h a (by simp)).bind fun _ _ => ih fun a ha => h a (by simp [ha])

theorem SymbolTable.Agrees.outside (agrees : t.Agrees t')
    (h : ∀ q ∈ qs, t.IsQuantifier q) : t'.Outside qs := fun q hq =>
  ⟨fun plain => (h q hq).ne_class ((agrees.plain q).1 plain) rfl,
    fun package => (h q hq).ne_package ((agrees.package q).1 package) rfl⟩

theorem SymbolTable.Agrees.copies (agrees : t.Agrees t') (h : ∀ q ∈ qs, t.IsQuantifier q)
    (copies : List.Forall₂ (t.IsCopy t') qs cs) : ∀ c ∈ cs, t'.IsQuantifier c := by
  intro c hc
  obtain ⟨q, hq, copy⟩ := exists_of_forall₂ copies hc
  exact (h q hq).copy agrees copy.kind copy.info

/-- The infos of quantifiers have nothing to rename. -/
theorem substSym_info {q : SymbolId} (h : t.IsQuantifier q)
    (len : cs.length = qs.length) (outside : t.Outside qs)
    (fuel : Nat) : Yields t False (substSym fuel qs cs (t.info q)) (· = t.info q) := by
  cases fuel with
  | zero => exact .fail id
  | succ fuel =>
    obtain info | ⟨lo, hi, info, closed⟩ := h.info <;> rw [info]
    · unfold substSym
      rw [if_pos (by simp [Ty.isSentinel])]
      exact .pure rfl
    · unfold substSym
      split
      · exact .pure rfl
      · refine (substSym_closed closed.1 len outside fuel).bind fun lo' hlo => ?_
        refine (substSym_closed closed.2 len outside fuel).bind fun hi' hhi => .pure ?_
        rw [if_pos ⟨hlo, hhi⟩]

theorem cloneSymbols_copies (ht : t.Rooted) (h : t.Hosts t')
    (quantifiers : ∀ q ∈ qs, t.IsQuantifier q) {fuel : Nat}
    (run : cloneSymbols fuel qs t' = .ok cs t'') :
    t.Hosts t'' ∧ List.Forall₂ (t.IsCopy t'') qs cs ∧ cs.Nodup := by
  obtain ⟨_, t1, cloned, run⟩ := exists_of_bind run
  obtain ⟨_, t2, renamed, run⟩ := exists_of_bind run
  cases run
  obtain ⟨hosts, copies, distinct⟩ := clone_copies ht h quantifiers cloned
  have agrees := hosts.agrees ht
  have rooted := hosts.rooted ht
  have copied := agrees.copies quantifiers copies
  have outside := agrees.outside quantifiers
  have same : Yields t1 False (cs.forM fun copy => do
      SymM.setInfo copy (← substSym fuel qs cs (← SymM.info copy))) fun _ => True := by
    refine .forM fun c hc => ?_
    have look : Yields t1 False (SymM.info c) (· = t1.info c) :=
      .bind .get fun t3 ht3 => .pure (congrArg SymbolRecord.info (ht3.get_eq c))
    refine look.bind fun info hinfo => ?_
    subst hinfo
    refine (substSym_info (copied c hc) copies.length_eq.symm outside fuel).bind fun info hinfo =>
      ?_
    subst hinfo
    intro t3 ht3
    have eq : t3.setInfo c (t1.info c) = t3 := by
      rw [SymbolTable.info, ← ht3.get_eq]
      refine setInfo_self ?_
      rw [size, ht3.records]
      exact (copied c hc).entered rooted
    refine ⟨?_, trivial⟩
    show t1.Remembers (t3.setInfo c (t1.info c))
    rwa [eq]
  have remembers := same t1 rooted.plain.remembers
  rw [renamed] at remembers
  exact ⟨hosts.remembers ht remembers.1, copies.imp fun q c copy =>
    copy.later (remembers.1.get_eq c), distinct⟩

/-! ## Variables for the copies -/

theorem freshVars_open {ps : List SymbolId}
    (h : (ps.mapM fun p => do freshVar ((← readTable).typeConstructor p) {} : CheckM (List Ty))
    s = .ok tvars s') :
    s'.table = s.table ∧ s'.guard = s.guard ∧ (∀ v info, s.vars.info? v = some info →
    s'.vars.info? v = some info) ∧
      ∃ vs : List VarId, tvars = vs.map .var ∧ ∀ v ∈ vs, ∃ info, s'.vars.info? v = some info ∧
        info.suspended = false ∧ info.constraint = {} := by
  induction ps generalizing s tvars with
  | nil =>
    cases h
    exact ⟨rfl, rfl, fun _ _ h => h, [], rfl, by simp⟩
  | cons p ps ih =>
    rw [List.mapM_cons] at h
    obtain ⟨tvar, s1, made, h⟩ := exists_of_bind h
    obtain ⟨tvars, s2, rest, h⟩ := exists_of_bind h
    cases h
    cases made
    obtain ⟨table, guard, kept, vs, rfl, others⟩ := ih rest
    refine ⟨table, guard, fun v info hinfo => kept v info (UndoLog.info?_fresh hinfo _ _ _).2,
      ⟨s.vars.vars.size⟩ :: vs, rfl, ?_⟩
    have first : (s.vars.fresh (s.table.typeConstructor p) s.skolems.depth {}).2.info?
        ⟨s.vars.vars.size⟩ = some ⟨s.table.typeConstructor p, s.skolems.depth, false, {}⟩ := by
      simp [UndoLog.info?, UndoLog.vars_fresh]
    exact List.forall_mem_cons.2 ⟨⟨_, kept _ _ first, rfl, rfl⟩, others⟩

theorem Ty.inst_refs {as : List Ty} (distinct : cs.Nodup) (arity : as.length = cs.length) :
    (cs.map fun c => Ty.ref .noPrefix c []).map (Ty.inst cs as) = as := by
  apply List.ext_getElem?
  intro i
  rw [List.map_map, List.getElem?_map]
  cases hc : cs[i]? with
  | none =>
    rw [List.getElem?_eq_none_iff] at hc
    rw [List.getElem?_eq_none (by omega)]
    rfl
  | some c =>
    obtain ⟨lt, rfl⟩ := List.getElem?_eq_some_iff.1 hc
    have ha : as[i]? = some as[i] := List.getElem?_eq_getElem (by omega)
    have index : cs.idxOf cs[i] = i := distinct.idxOf_getElem i lt
    rw [ha, Option.map_some, Function.comp, Ty.inst_param (a := as[i])
      (by rw [index, ha]) (List.getElem_mem lt)]

/-- The body is instantiated with the variables in two steps. -/
theorem substBody_yields {B : Ty} (fuel : Nat) (hB : t.ClassTerm qs B)
    (outside : t.Outside qs) (len : cs.length = qs.length)
    (distinct : cs.Nodup) (arity : tvars.length = cs.length) : Yields t False (do
      let body ← substSym fuel qs cs B
      substTypes fuel cs tvars body) (· = B.inst qs tvars) := by
  refine (substSym_yields hB len outside fuel).bind fun body hbody => ?_
  subst hbody
  have term : t.ClassTerm cs (B.inst qs (cs.map fun c => .ref .noPrefix c [])) := by
    refine hB.inst (by simpa using len) fun a ha => ?_
    obtain ⟨c, hc, rfl⟩ := List.mem_map.1 ha
    exact .param hc
  refine ((substTypes_term term.isTerm arity fuel).of_ok False.elim).imp fun body hbody => ?_
  rw [hbody, hB.inst_inst (by simpa using len), Ty.inst_refs distinct arity]

/-! ## The comparison -/

section Comparison

variable {n : Nat} {cfg : Config} {q : Queries} {l B : Ty} {as : List Ty} {depth : Depth}

/-- The arguments are compared with declared bounds that are closed. -/
theorem withinBounds_finds (ht : t.Rooted) (hq : q.Serve t n False)
    (quantifiers : ∀ c ∈ cs, t.IsQuantifier c) (joined : ∀ a ∈ as, t.Joined a) :
    Finds t n False (withinBounds cfg q .noPrefix .none cs as) fun b => b = true →
      List.Forall₂ (fun c a => t.Accepts (t.boundsOf c).1 a ∧ t.Accepts a (t.boundsOf c).2)
        cs as := by
  refine .ite (fun len => ?_) fun _ => .pure nofun
  refine (Finds.allM (A := fun p => t.Accepts (t.boundsOf p.1).1 p.2 ∧
    t.Accepts p.2 (t.boundsOf p.1).2) ?_).imp fun b hb yes =>
    List.forall₂_iff_zip.2 ⟨len, fun mem => hb yes _ mem⟩
  rintro ⟨c, a⟩ mem
  obtain ⟨hc, ha⟩ := List.of_mem_zip mem
  obtain ⟨lo, hi⟩ := (quantifiers c hc).bounds_closed ht
  refine Finds.readTable.bind fun t' ht' => ?_
  rw [ht'.boundsOf_eq ((quantifiers c hc).entered ht)]
  refine (Finds.onTable (substTypes_finds ht lo len.symm)).bind fun lo' eq => ?_
  subst eq
  refine (Finds.onTable (substTypes_finds ht hi len.symm)).bind fun hi' eq => ?_
  subst eq
  refine (hq.sub _ a lo.joined (joined a ha)).bind fun b hb => ?_
  cases b with
  | false => exact .pure nofun
  | true => exact (hq.sub a _ (joined a ha) hi.joined).imp fun b hb' yes => ⟨hb rfl, hb' yes⟩

/-- Types for the quantifiers that are within their bounds and with which the body accepts `l`. -/
structure SymbolTable.Witnesses (t : SymbolTable) (qs : List SymbolId)
    (B l : Ty) (as : List Ty) : Prop where
  joined : ∀ a ∈ as, t.Joined a
  bounds : List.Forall₂ (fun q a => t.Accepts (t.boundsOf q).1 a ∧ t.Accepts a (t.boundsOf q).2)
    qs as
  body : t.Accepts l (B.inst qs as)

/-- What the variables are instantiated to. -/
def UndoLog.solution (log : VarLog Ty) (v : VarId) : Ty := (log.inst? v).getD .noType

theorem CheckM.Solves.solution {log : VarLog Ty}
    (h : List.Forall₂ (fun v a => ∃ info, log.info? v = some info ∧ Solves t info a) vs as) :
    as = vs.map log.solution ∧ (∀ a ∈ as, t.Joined a) ∧ Meets t (· ∈ vs) log.solution log := by
  have found : ∀ {v a info}, log.info? v = some info → Solves t info a → log.solution v = a := by
    intro v a info hinfo solves
    rw [UndoLog.solution, UndoLog.inst?, hinfo, Option.bind_some, solves.inst, Option.getD_some]
  refine ⟨?_, fun a ha => ?_, ?_⟩
  · induction h with
    | nil => rfl
    | cons first _ ih =>
      obtain ⟨info, hinfo, solves⟩ := first
      rw [List.map_cons, found hinfo solves, ← ih]
  · obtain ⟨v, -, info, -, solves⟩ := exists_of_forall₂ h ha
    exact solves.joined
  · intro v hv info hinfo
    obtain ⟨a, -, info', hinfo', solves⟩ := exists_of_forall₂ h.flip hv
    obtain rfl : info = info' := Option.some.inj (hinfo.symm.trans hinfo')
    rw [found hinfo solves]
    exact ⟨solves.lo, solves.hi⟩

/-- The comparison with the body, and what the variables are solved to after it. -/
theorem existentialBody_witness (ht : t.Rooted) (hl : t.ClassType l) (hB : t.ClassTerm qs B)
    (quantifiers : ∀ c ∈ cs, t.IsQuantifier c) (arity : vs.length = qs.length) {b : Bool}
    (opens : Open t (· ∈ vs) s) (room : s.guard.maxDepth ≤ s.guard.depth + n) (run : (do
      if !(← (cfg.queriesUpTo n).sub l (B.inst qs (vs.map .var)) depth) then return false
      match ← (solve cfg (cfg.queriesUpTo n) (vs.map .var)
        cs (cs.map fun _ => .invariant) false depth).run with
      | .ok insts => withinBounds cfg (cfg.queriesUpTo n) .noPrefix .none cs insts
      | .error _ => return false : CheckM Bool) s = .ok b s') :
    t.Hosts s'.table ∧ (b = true → ∃ as, (∀ a ∈ as, t.Joined a) ∧
      List.Forall₂ (fun c a => t.Accepts (t.boundsOf c).1 a ∧ t.Accepts a (t.boundsOf c).2) cs as ∧
      t.Accepts l (B.inst qs as)) := by
  obtain ⟨accepted, s1, compared, run⟩ := exists_of_bind run
  have terms : t.OpenTerm (· ∈ vs) (B.inst qs (vs.map .var)) := by
    refine hB.inst_of OpenTerm.congruent (by simpa using arity) fun a ha => ?_
    obtain ⟨v, hv, rfl⟩ := List.mem_map.1 ha
    exact .var hv
  have registered := fun σ => cfg.queriesUpTo_register
    (σ := σ) ht n l _ (.inl ⟨hl, terms⟩) depth s opens accepted s1 compared
  obtain ⟨opens1, -, -⟩ := registered fun _ => .noType
  have hosts1 : t.Hosts s1.table := ht.hosts.remembers ht opens1.remembers
  cases accepted with
  | false =>
    cases run
    exact ⟨hosts1, nofun⟩
  | true =>
    have balanced := (cfg.queriesUpTo_balanced n).sub l (B.inst qs (vs.map .var)) depth s
    rw [after_ok compared] at balanced
    have room1 : s1.guard.maxDepth ≤ s1.guard.depth + n := by
      rw [balanced.maxDepth, balanced.depth]
      exact room
    have serve := cfg.queriesUpTo_serve ht False.elim n
    obtain ⟨result, s2, solved, run⟩ := exists_of_bind run
    have vars : ∀ v ∈ vs, ∃ info, s1.vars.info? v = some info ∧
      info.constraint.inst = none ∧ Ranged t info := by
      intro v hv
      obtain ⟨info, hinfo, -, free, ranged⟩ := opens1.vars v hv
      exact ⟨info, hinfo, free, ranged⟩
    obtain ⟨found, failed⟩ := solve_solves ht serve depth hosts1 room1 quantifiers vars s1 rfl
    cases result with
    | error e =>
      cases run
      exact ⟨failed e _ solved, nofun⟩
    | ok as =>
      obtain ⟨hosts2, room2, grows, solves⟩ := found as s2 solved
      obtain ⟨eq, joined, meets⟩ := Solves.solution solves
      obtain ⟨serves, within⟩ := (withinBounds_finds ht serve quantifiers joined).of_run
        hosts2 room2 run
      refine ⟨serves.table, fun yes => ⟨as, joined, within yes, ?_⟩⟩
      have accepts := (registered s2.vars.solution).2.2 rfl (meets.of_grows grows)
      rw [hl.fill_eq, hB.fill_inst (by simpa using arity), List.map_map] at accepts
      rwa [eq]

theorem conformsToExistential_witness (ht : t.Rooted) (hl : t.ClassType l) (hB : t.ClassTerm qs B)
    (quantifiers : ∀ q ∈ qs, t.IsQuantifier q) {b : Bool} (hosts : t.Hosts s.table)
    (room : s.guard.maxDepth ≤ s.guard.depth + n)
    (run : conformsToExistential cfg (cfg.queriesUpTo n) l qs B depth s = .ok b s') :
    t.Hosts s'.table ∧ (b = true → ∃ as, t.Witnesses qs B l as) := by
  obtain ⟨cs, s1, cloned, run⟩ := exists_of_bind run
  obtain ⟨t1, copied, rfl⟩ := exists_of_onTable (x := cloneSymbols cfg.fuel qs) cloned
  obtain ⟨hosts1, copies, distinct⟩ := cloneSymbols_copies ht hosts quantifiers copied
  have agrees := hosts1.agrees ht
  have rooted := hosts1.rooted ht
  obtain ⟨tvars, s2, made, run⟩ := exists_of_bind run
  obtain ⟨table, guard, -, vs, rfl, opens⟩ := freshVars_open made
  have arity : vs.length = cs.length := by simpa using length_of_mapM made
  obtain ⟨body1, s3, renamed, run⟩ := exists_of_bind run
  obtain ⟨t3, first, rfl⟩ := exists_of_onTable (x := substSym cfg.fuel qs cs B) renamed
  obtain ⟨body2, s4, replaced, run⟩ := exists_of_bind run
  obtain ⟨t4, second, rfl⟩ := exists_of_onTable (x := substTypes cfg.fuel cs (vs.map .var) body1)
    replaced
  -- from here on the table with the copies is the one that is spoken of
  have outside := agrees.outside quantifiers
  have body := substBody_yields cfg.fuel (agrees.classTerm hB) outside
    copies.length_eq.symm distinct (show (vs.map Ty.var).length = cs.length by simpa using arity)
    t1 rooted.plain.remembers
  rw [table] at first
  rw [bind_ok first, second] at body
  obtain ⟨remembers, rfl⟩ := body
  have opens1 : Open t1 (· ∈ vs) { s2 with table := t4 } := by
    refine ⟨remembers, fun v hv => ?_⟩
    obtain ⟨info, hinfo, suspended, none⟩ := opens v hv
    exact ⟨info, hinfo, suspended, by rw [none], by rw [none]; simp, by rw [none]; simp⟩
  obtain ⟨hosts', witness⟩ := existentialBody_witness rooted (agrees.classTerm hl)
    (agrees.classTerm hB) (agrees.copies quantifiers copies)
    (arity.trans copies.length_eq.symm) opens1 (by rw [guard]; exact room) run
  refine ⟨hosts1.trans ht hosts', fun yes => ?_⟩
  obtain ⟨as, joined, bounds, accepts⟩ := witness yes
  have back : ∀ {a b}, t1.Accepts a b → t.Accepts a b := agrees.symm.accepts rooted.plain ht.plain
  refine ⟨as, fun a ha => agrees.symm.joined (joined a ha), ?_, back accepts⟩
  refine forall₂_trans copies bounds fun copy bounds => ?_
  rw [boundsOf_eq copy.info] at bounds
  exact ⟨back bounds.1, back bounds.2⟩

/-- No other rule accepts a class type, the bottom one aside. -/
theorem finalPass_existential (ht : t.Rooted) (hl : t.ClassType (.ref (.this pkg) c args))
    (nothing : c ≠ Known.nothing) : Finds t n False
    (finalPass cfg q (.ref (.this pkg) c args) (.exist qs B) depth) fun b => b = true → False := by
  show Finds t n False (leftRef cfg q (.this pkg) c args (.exist qs B) depth) _
  by_cases null : c = Known.null
  · subst null
    exact .pure nofun
  · refine .of_settles ht fun t' ht' => ⟨fun b => False → b = true, ?_⟩
    have applied := (ht'.agrees ht).applied hl.applied
    exact leftRef_decided_no applied.plain.static applied.arity nothing null (.inr nofun)

theorem subStep_existential_witness (ht : t.Rooted)
    (hl : t.ClassType l) (nothing : ∀ pkg args, l ≠ .ref (.this pkg) Known.nothing args)
    (hB : t.ClassTerm qs B) (quantifiers : ∀ q ∈ qs, t.IsQuantifier q)
    (hosts : t.Hosts s.table) (room : s.guard.maxDepth ≤ s.guard.depth + n)
    (run : subStep cfg (cfg.queriesUpTo n) l (.exist qs B) depth s = .ok true s') :
    t.Hosts s'.table ∧ ∃ as, t.Witnesses qs B l as := by
  obtain ⟨pkg, c, args, rfl⟩ := hl.shape
  have left := (hosts.plain ht).remembers.ordinary_app ((hosts.agrees ht).applied hl.applied)
  have right : s.table.IsOrdinary (.exist qs B) := ⟨rfl, rfl, nofun, rfl, rfl, rfl⟩
  rw [subStep_ordinary_run left right nofun] at run
  obtain ⟨accepted, s1, compared, run⟩ := exists_of_bind run
  obtain ⟨hosts1, witness⟩ := conformsToExistential_witness ht hl hB quantifiers hosts room compared
  cases accepted with
  | true =>
    cases run
    exact ⟨hosts1, witness rfl⟩
  | false =>
    have other : c ≠ Known.nothing := by
      rintro rfl
      exact nothing pkg args rfl
    have refused := (finalPass_existential ht hl other (n := s1.guard.maxDepth)).of_run
      hosts1 (by omega) run
    exact (refused.2 rfl).elim

end Comparison

/-! ## Queries -/

namespace CheckM

theorem exists_of_query {enter : Guard.Entering} {op : Relation} {depth : Option Nat}
    {x : CheckM Bool} (run : reported op depth (guarded enter x) s = .ok true s') : ∃ entry s1,
    (enter s.guard).1 = .entered entry ∧ x (opened (admitted enter op depth s)) = .ok true s1 ∧
      s'.table = s1.table := by
  obtain ⟨-, refused, -⟩ | ⟨entry, s1, admission, rule, rfl⟩ := query_ok run
  · cases refused
  · exact ⟨entry, s1, admission, rule, by simp [left]⟩

end CheckM

namespace Config

/-- In every state over a table that hosts `t`, a query for `l <: r` gives a result, which is `true`
unless the guard refused an entry. -/
def Confirms (cfg : Config) (t : SymbolTable) (l r : Ty) : Prop :=
  ∀ s, t.Hosts s.table → ∃ b s', cfg.isSubtype l r s = .ok b s' ∧ (b = true ∨ Counted s s')

theorem confirms_of_accepts {cfg : Config} {l r : Ty} (ht : t.Rooted) (fueled : Fueled t cfg.fuel)
    (hl : t.Joined l) (hr : t.Joined r) (h : t.Accepts l r) : cfg.Confirms t l r := by
  intro s hosts
  have agrees := hosts.agrees ht
  have plain := hosts.plain ht
  have decided : ∀ n, Decided s.table n (Fueled s.table cfg.fuel) (cfg.isSubtype l r)
      (s.table.Accepts l r) (Depth.unlimited = .unlimited ∧ s.table.Accepts l r) := fun n =>
    withQueries_settles (f := (·.sub l r .unlimited)) cfg fun n =>
      cfg.queriesUpTo_accept plain n l r (agrees.joined hl) (agrees.joined hr) .unlimited
  obtain ⟨b, s', run, -, -, complete⟩ := Settles.run decided plain.remembers (agrees.fueled fueled)
  refine ⟨b, s', run, ?_⟩
  obtain counted | complete := complete
  · exact .inr counted
  · exact .inl (complete ⟨rfl, agrees.accepts ht.plain plain h⟩)

theorem isSubtype_existential_witness {cfg : Config} {l B : Ty} (ht : t.Rooted)
    (hl : t.ClassType l) (nothing : ∀ pkg args, l ≠ .ref (.this pkg) Known.nothing args)
    (hB : t.ClassTerm qs B) (quantifiers : ∀ q ∈ qs, t.IsQuantifier q)
    (hosts : t.Hosts s.table) (run : cfg.isSubtype l (.exist qs B) s = .ok true s') :
    t.Hosts s'.table ∧ ∃ as, t.Witnesses qs B l as := by
  change (cfg.queriesUpTo (levelsLeft s)).sub l (.exist qs B) .unlimited s = _ at run
  cases levels : levelsLeft s with
  | zero =>
    rw [levels] at run
    obtain ⟨_, _, -, none, -⟩ := exists_of_query run
    cases none
  | succ n =>
    rw [levels] at run
    obtain ⟨entry, s1, entered, rule, table⟩ := exists_of_query run
    obtain ⟨maxDepth, admission⟩ := Guard.admits_enter (l, .exist qs B) s.guard
    simp only [entered] at admission maxDepth
    have room : (opened (admitted (·.enter (l, .exist qs B)) .subtype none s)).guard.maxDepth ≤
        (opened (admitted (·.enter (l, .exist qs B)) .subtype none s)).guard.depth + n := by
      unfold levelsLeft at levels
      simp only [opened, admitted_guard]
      omega
    rw [table]
    exact subStep_existential_witness ht hl nothing
      hB quantifiers (by simpa [opened] using hosts) room rule

/-- A class type is accepted by an existential only if there are types for the quantifiers, within
their bounds, with which the body confirms it. -/
theorem accepted_existential_has_witness (ht : t.Rooted) :
    ∃ bound, ∀ (cfg : Config) (s s' : CheckState) (l B : Ty) (qs : List SymbolId),
      s.table = t → t.ClassType l → (∀ pkg args, l ≠ .ref (.this pkg) Known.nothing args) →
      t.ClassTerm qs B → (∀ q ∈ qs, t.IsQuantifier q) →
      cfg.isSubtype l (.exist qs B) s = .ok true s' →
        t.Hosts s'.table ∧ ∃ as, as.length = qs.length ∧ ∀ cfg' : Config, bound ≤ cfg'.fuel →
          (∀ (i : Nat) q a, qs[i]? = some q → as[i]? = some a →
            cfg'.Confirms t (t.boundsOf q).1 a ∧ cfg'.Confirms t a (t.boundsOf q).2) ∧
          cfg'.Confirms t l (B.inst qs as) := by
  obtain ⟨bound, fueled⟩ := exists_fueled t
  refine ⟨bound, fun cfg s s' l B qs hs hl nothing hB quantifiers run => ?_⟩
  obtain ⟨hosts, as, joined, bounds, body⟩ :=
    isSubtype_existential_witness ht hl nothing hB quantifiers (hs ▸ ht.hosts) run
  refine ⟨hosts, as, bounds.length_eq.symm, fun cfg' enough => ⟨fun i q a hq ha => ?_, ?_⟩⟩
  · have pair : (qs.zip as)[i]? = some (q, a) := List.getElem?_zip_eq_some.2 ⟨hq, ha⟩
    have within := List.forall₂_zip bounds (List.mem_of_getElem? pair)
    obtain ⟨lo, hi⟩ := (quantifiers q (List.mem_of_getElem? hq)).bounds_closed ht
    have ha := joined a (List.mem_of_getElem? ha)
    exact ⟨confirms_of_accepts ht (fueled _ enough) lo.joined ha within.1,
      confirms_of_accepts ht (fueled _ enough) ha hi.joined within.2⟩
  · refine confirms_of_accepts ht (fueled _ enough) hl.joined ?_ body
    exact hB.inst_of Joined.congruent bounds.length_eq.symm joined

/-- `shelf` with `Pair[X, +Y]` and the quantifiers `Q <: Object` and `R`; their identifiers are 32,
35 and 36. -/
def lending : SymbolTable := SymM.after (do
  let pair ← newClass ⟨24⟩ "Pair" .empty
  let x ← newTypeParam pair "X" .invariant
  let y ← newTypeParam pair "Y" .covariant
  modify fun t => (t.setTParams pair [x, y]).setParents pair [Known.anyRefType]
  let q ← newExistential pair "Q"
  SymM.setInfo q (.bounds Known.nothingType Known.objectType)
  let _ ← newExistential pair "R") shelf

theorem lending_rooted : lending.Rooted := by
  have listed : lending.ListsPlain := by decide +kernel
  refine ⟨listed.plain, by decide +kernel, listed.forall_plain (by decide +kernel),
    ?_, ?_, ?_, ?_, ?_⟩ <;> decide +kernel

/-- `Pair[String, Cell[String]]` is accepted by `Pair[Q, Box[R]] forSome { Q <: Object; R }`. -/
theorem pair_existential_has_witness :
    let string := Known.javaLangRef Known.string
    let l : Ty := .ref (.this ⟨24⟩) ⟨32⟩ [string, .ref (.this ⟨24⟩) ⟨28⟩ [string]]
    let body : Ty := .ref (.this ⟨24⟩) ⟨32⟩ [.ref .noPrefix ⟨35⟩ [],
      .ref (.this ⟨24⟩) ⟨26⟩ [.ref .noPrefix ⟨36⟩ []]]
    let qs : List SymbolId := [⟨35⟩, ⟨36⟩]
    let cfg : Config := ⟨{}, .typeConstraints, 16⟩
    let query := cfg.isSubtype l (.exist qs body)
    let s := CheckState.fresh {} lending 0 #[]
    lending.Rooted ∧ lending.ClassType l ∧ lending.ClassTerm qs body ∧
    (∀ q ∈ qs, lending.IsQuantifier q) ∧
      query.answer? s = some true ∧ ∃ bound as, as.length = qs.length ∧
        ∀ cfg' : Config, bound ≤ cfg'.fuel → (∀ (i : Nat) q a, qs[i]? = some q → as[i]? = some a →
          cfg'.Confirms lending (lending.boundsOf q).1 a ∧
            cfg'.Confirms lending a (lending.boundsOf q).2) ∧
        cfg'.Confirms lending l (body.inst qs as) := by
  intro string l body qs cfg query s
  have hl : lending.ClassType l := classTerm_of_check _ l (by decide +kernel)
  have hbody : lending.ClassTerm qs body := classTerm_of_check _ body (by decide +kernel)
  have bounded : lending.IsQuantifier ⟨35⟩ :=
    ⟨by decide +kernel, .inr ⟨Known.nothingType, Known.objectType, by decide +kernel,
    lending_rooted.nothingType, lending_rooted.plain.objectType_term []⟩⟩
  have unbounded : lending.IsQuantifier ⟨36⟩ := ⟨by decide +kernel, .inl (by decide +kernel)⟩
  have quantifiers : ∀ q ∈ qs, lending.IsQuantifier q := by
    simpa [qs] using And.intro bounded unbounded
  have accepted : query.answer? s = some true := by decide +kernel
  obtain ⟨bound, witness⟩ := accepted_existential_has_witness lending_rooted
  have other : ∀ pkg args, l ≠ .ref (.this pkg) Known.nothing args :=
    fun _ _ eq => absurd (Ty.ref.inj eq).2.1 (by decide)
  obtain ⟨-, as, len, confirmed⟩ := witness cfg s _
    l body qs rfl hl other hbody quantifiers (run_of_answer? accepted)
  exact ⟨lending_rooted, hl, hbody, quantifiers, accepted, bound, as, len, confirmed⟩

end Config

end Conformance

import Conformance.Proofs.Classes.Acceptance
import Conformance.Proofs.Classes.Check

/-! # Aliases of class types

A plain table may declare aliases besides its classes. A type written with aliases stands for the
class type that is left when every alias is replaced by its right-hand side. `Expands` is that
replacement at every depth; the operations expand only the alias at the head, which `HeadForm`
describes. -/

namespace Conformance

variable {args as as' : List Ty} {bound i : Nat} {a b c pkg : SymbolId} {a' g l' ty ty' : Ty}

namespace SymbolTable

variable (t : SymbolTable)

/-- An alias of a package. -/
structure IsAlias (a : SymbolId) : Prop where
  kind : t.kind a = .aliasType
  owned : t.IsPackage (t.owner a)
  not_deferred : (t.flags a).has .deferred = false

instance (a : SymbolId) : Decidable (t.IsAlias a) :=
  decidable_of_iff (t.kind a = .aliasType ∧ t.IsPackage (t.owner a) ∧ (t.flags a).has
    .deferred = false) ⟨fun h => ⟨h.1, h.2.1, h.2.2⟩, fun h => ⟨h.kind, h.owned, h.not_deferred⟩⟩

/-- Types built from the parameters `ps` by classes and aliases applied to all their arguments. -/
inductive Written (ps : List SymbolId) : Ty → Prop where
  | param {p : SymbolId} (mem : p ∈ ps) : Written ps (.ref .noPrefix p [])
  | app {pkg c : SymbolId} {args : List Ty} (package : t.IsPackage pkg)
      (head : t.IsPlainClass c ∨ t.IsAlias c) (arity : args.length = (t.tparams c).length)
      (terms : ∀ a ∈ args, Written ps a) : Written ps (.ref (.this pkg) c args)

/-- The second type is the first one with every alias replaced by its right-hand side. -/
inductive Expands : Ty → Ty → Prop where
  | param {p : SymbolId} : Expands (.ref .noPrefix p []) (.ref .noPrefix p [])
  | applied {pkg c : SymbolId} {as as' : List Ty} (plain : t.IsPlainClass c)
      (len : as.length = as'.length) (args : ∀ (i : Nat) a a', as[i]? = some a →
      as'[i]? = some a' → Expands a a') : Expands (.ref (.this pkg) c as) (.ref (.this pkg) c as')
  | replaced {pkg a : SymbolId} {as as' : List Ty}
      {g : Ty} (head : t.IsAlias a) (rhs : Expands (t.info a) g) (len : as.length = as'.length)
      (args : ∀ (i : Nat) a a', as[i]? = some a → as'[i]? = some a' → Expands a a') :
      Expands (.ref (.this pkg) a as) (g.inst (t.tparams a) as')

end SymbolTable

/-- A reference to `s` occurs in the type, or is the type. -/
inductive Ty.Names (s : SymbolId) : Ty → Prop where
  | here {pre : Ty} {args : List Ty} : Names s (.ref pre s args)
  | arg {pre a : Ty} {c : SymbolId} {args : List Ty}
    (mem : a ∈ args) (names : Names s a) : Names s (.ref pre c args)

namespace SymbolTable

variable (t : SymbolTable)

/-- The right-hand side of the alias `a` is the alias `b`, applied to arguments. -/
def AliasStep (a b : SymbolId) : Prop :=
  t.IsAlias a ∧ t.IsAlias b ∧ ∃ pkg args, t.info a = .ref (.this pkg) b args

/-- The aliases of a table stand for class types. -/
structure Aliased : Prop where
  /-- A right-hand side is a class or an alias, applied to terms over the parameters. -/
  rhs : ∀ a, t.IsAlias a → t.Written (t.tparams a)
    (t.info a) ∧ ∃ pkg c args, t.info a = .ref (.this pkg) c args
  /-- No alias stands for a type in which it occurs itself, directly or through others. -/
  acyclic : WellFounded fun b a => t.IsAlias a ∧ t.IsAlias b ∧ (t.info a).Names b
  chains : ∀ as, List.IsChain t.AliasStep as → as.length ≤ 60
  /-- Parameters occur where their variances allow it. -/
  variances : ∀ a, t.IsAlias a → ∀ g, t.Expands (t.info a) g → t.Occurs true g
  /-- The classes with rules of their own are no aliases. -/
  known : ∀ s ∈ [Known.nothing, Known.null, Known.singleton, Known.notNull], t.kind s ≠ .aliasType

variable {t : SymbolTable} {ps : List SymbolId}

theorem IsAlias.isAliasType (head : t.IsAlias a) : (t.get a).isAliasType = true := by
  rw [SymbolRecord.isAliasType, show (t.get a).kind = _ from head.kind]
  rfl

theorem IsAlias.not_class (head : t.IsAlias a) : (t.get a).isClass = false := by
  rw [SymbolRecord.isClass, show (t.get a).kind = _ from head.kind]
  rfl

theorem IsAlias.concrete (head : t.IsAlias a) : (t.get a).isAbstractType = false := by
  have deferred : (t.get a).flags.has .deferred = false := head.not_deferred
  rw [SymbolRecord.isAbstractType, deferred, Bool.and_false]

theorem IsPlainClass.not_isAlias (hc : t.IsPlainClass c) : ¬ t.IsAlias c := by
  intro ha
  have kind := ha.kind
  rw [hc.kind] at kind
  cases kind

theorem Written.applied (h : t.Written ps (.ref (.this pkg) c args)) :
    t.IsPackage pkg ∧ (t.IsPlainClass c ∨ t.IsAlias c) ∧ args.length = (t.tparams c).length ∧
      ∀ a ∈ args, t.Written ps a := by
  cases h with
  | app package head arity terms => exact ⟨package, head, arity, terms⟩

theorem Written.arity (h : t.Written ps (.ref (.this pkg) c args)) :
    args.length = (t.tparams c).length := h.applied.2.2.1

theorem Written.arg (h : t.Written ps (.ref (.this pkg) c args)) {a : Ty}
    (ha : a ∈ args) : t.Written ps a := h.applied.2.2.2 a ha

theorem ClassTerm.written (h : t.ClassTerm ps g) : t.Written ps g := by
  induction h with
  | param mem => exact .param mem
  | app package plain arity _ ih => exact .app package (.inl plain) arity ih

theorem Written.isTerm (h : t.Written ps g) : g.IsTerm ps := by
  induction h with
  | param mem => exact .param mem
  | app _ _ _ _ ih => exact .app ih

theorem Written.inst {qs : List SymbolId} (h : t.Written ps g) (arity : args.length = ps.length)
    (terms : ∀ a ∈ args, t.Written qs a) : t.Written qs (g.inst ps args) := by
  induction h with
  | param mem =>
    obtain ⟨a, ha, -⟩ := exists_arg mem arity
    rw [Ty.inst_param ha mem]
    exact terms a (List.mem_of_getElem? ha)
  | app package head len _ ih =>
    rw [Ty.inst_app]
    refine .app package head (by simpa using len) fun b hb => ?_
    obtain ⟨a, ha, rfl⟩ := List.mem_map.1 hb
    exact ih a ha

/-! ## Expansion -/

/-- The lists have one length, and the second one has the expansions of the first one. -/
structure ExpandsAll (t : SymbolTable) (as as' : List Ty) : Prop where
  len : as.length = as'.length
  each : ∀ (i : Nat) a a', as[i]? = some a → as'[i]? = some a' → t.Expands a a'

theorem ExpandsAll.nil : t.ExpandsAll [] [] := ⟨rfl, by simp⟩

theorem ExpandsAll.cons {a : Ty} (h : t.Expands a a') (rest : t.ExpandsAll as as') :
    t.ExpandsAll (a :: as) (a' :: as') := by
  refine ⟨by simpa using rest.len, fun i b b' hb hb' => ?_⟩
  cases i with
  | zero =>
    cases hb
    cases hb'
    exact h
  | succ i => exact rest.each i b b' hb hb'

theorem ExpandsAll.of_forall (h : ∀ a ∈ as, ∃ a', t.Expands a a') : ∃ as', t.ExpandsAll as as' := by
  induction as with
  | nil => exact ⟨[], .nil⟩
  | cons a as ih =>
    obtain ⟨a', expands⟩ := h a List.mem_cons_self
    obtain ⟨as', rest⟩ := ih fun b hb => h b (List.mem_cons_of_mem _ hb)
    exact ⟨a' :: as', .cons expands rest⟩

/-- The expansion of an element, and the element that an expansion comes from. -/
theorem ExpandsAll.left (h : t.ExpandsAll as as') {a : Ty} (ha : as[i]? = some a) :
    ∃ a', as'[i]? = some a' ∧ t.Expands a a' := by
  have lt : i < as'.length := h.len ▸ (List.getElem?_eq_some_iff.1 ha).1
  exact ⟨as'[i], List.getElem?_eq_getElem lt, h.each i a _ ha (List.getElem?_eq_getElem lt)⟩

theorem ExpandsAll.right (h : t.ExpandsAll as as') (ha : as'[i]? = some a') :
    ∃ a, as[i]? = some a ∧ t.Expands a a' := by
  have lt : i < as.length := h.len ▸ (List.getElem?_eq_some_iff.1 ha).1
  exact ⟨as[i], List.getElem?_eq_getElem lt, h.each i _ a' (List.getElem?_eq_getElem lt) ha⟩

theorem Expands.unique {x y : Ty} (h : t.Expands ty x) (h' : t.Expands ty y) : x = y := by
  have lists : ∀ {as as' bs' : List Ty}, t.ExpandsAll as as' → t.ExpandsAll as bs' →
      (∀ (i : Nat) a a', as[i]? = some a → as'[i]? = some a' → ∀ {b}, t.Expands a b → a' = b) →
      as' = bs' := by
    intro as as' bs' ha hb ih
    refine List.ext_getElem? fun i => ?_
    cases found : as[i]? with
    | some a =>
      obtain ⟨a', ha', -⟩ := ha.left found
      obtain ⟨b', hb', expands⟩ := hb.left found
      rw [ha', hb', ih i a a' found ha' expands]
    | none =>
      rw [List.getElem?_eq_none_iff] at found
      rw [List.getElem?_eq_none (ha.len ▸ found), List.getElem?_eq_none (hb.len ▸ found)]
  induction h generalizing y with
  | param => cases h'; rfl
  | applied plain len args ih =>
    cases h' with
    | applied _ len' args' => rw [lists ⟨len, args⟩ ⟨len', args'⟩ ih]
    | replaced head => exact absurd head plain.not_isAlias
  | replaced head rhs len args ihrhs ih =>
    cases h' with
    | applied plain => exact absurd head plain.not_isAlias
    | replaced _ rhs' len' args' => rw [ihrhs rhs', lists ⟨len, args⟩ ⟨len', args'⟩ ih]

theorem ClassTerm.expands (h : t.ClassTerm ps g) : t.Expands g g := by
  induction h with
  | param => exact .param
  | app _ plain _ _ ih =>
    refine .applied plain rfl fun i a a' ha ha' => ?_
    obtain rfl : a = a' := Option.some.inj (ha.symm.trans ha')
    exact ih a (List.mem_of_getElem? ha)

/-- Every type stands for a type, given that the aliases in it do. -/
theorem Written.exists_expands (written : t.Written ps ty)
    (h : ∀ b, t.IsAlias b → ty.Names b → ∃ g, t.Expands (t.info b) g) :
    ∃ ty', t.Expands ty ty' := by
  induction written with
  | param => exact ⟨_, .param⟩
  | @app pkg c args package head arity _ ih =>
    have each : ∀ a ∈ args, ∃ a', t.Expands a a' :=
      fun a mem => ih a mem fun b hb names => h b hb (.arg mem names)
    obtain ⟨as', len, each⟩ := ExpandsAll.of_forall each
    obtain plain | head := head
    · exact ⟨_, .applied plain len each⟩
    · obtain ⟨g, rhs⟩ := h c head .here
      exact ⟨_, .replaced head rhs len each⟩

namespace Aliased

variable (ha : t.Aliased)
include ha

theorem classTerm (h : t.Expands ty ty') : ∀ {ps}, t.Written ps ty → t.ClassTerm ps ty' := by
  induction h with
  | param =>
    intro ps written
    cases written with
    | param mem => exact .param mem
  | applied plain len args ih =>
    intro ps written
    obtain ⟨package, -, arity, terms⟩ := written.applied
    refine .app package plain (len ▸ arity) fun a' ha' => ?_
    obtain ⟨i, hi⟩ := List.mem_iff_getElem?.1 ha'
    obtain ⟨a, found, -⟩ := ExpandsAll.right ⟨len, args⟩ hi
    exact ih i a a' found hi (terms a (List.mem_of_getElem? found))
  | replaced head rhs len args ihrhs ih =>
    intro ps written
    refine (ihrhs (ha.rhs _ head).1).inst (len ▸ written.arity) fun a' ha' => ?_
    obtain ⟨i, hi⟩ := List.mem_iff_getElem?.1 ha'
    obtain ⟨a, found, -⟩ := ExpandsAll.right ⟨len, args⟩ hi
    exact ih i a a' found hi (written.arg (List.mem_of_getElem? found))

theorem exists_expands (written : t.Written ps ty) : ∃ ty', t.Expands ty ty' := by
  have aliases : ∀ b, t.IsAlias b → ∃ g, t.Expands (t.info b) g := by
    intro b
    induction b using ha.acyclic.induction with
    | _ a ih =>
      intro head
      exact (ha.rhs a head).1.exists_expands fun b hb names => ih b ⟨head, hb, names⟩ hb
  exact written.exists_expands fun b hb _ => aliases b hb

/-- Expansion goes through instantiation. -/
theorem expands_inst {g' : Ty} (h : t.Expands g g') (args : t.ExpandsAll as as') :
    ∀ {ps}, t.Written ps g → as.length = ps.length → t.Expands (g.inst ps as) (g'.inst ps as') := by
  have lists : ∀ {ps} {bs bs' : List Ty}, bs.length = bs'.length →
      (∀ (i : Nat) b b', bs[i]? = some b → bs'[i]? = some b' → t.Expands (b.inst ps as)
      (b'.inst ps as')) → t.ExpandsAll (bs.map (Ty.inst ps as)) (bs'.map (Ty.inst ps as')) := by
    intro ps bs bs' len each
    refine ⟨by simpa using len, fun i x x' hx hx' => ?_⟩
    obtain ⟨b, hb, rfl⟩ := by simpa using hx
    obtain ⟨b', hb', rfl⟩ := by simpa using hx'
    exact each i b b' hb hb'
  induction h with
  | param =>
    intro ps written arity
    cases written with
    | param mem =>
    obtain ⟨a, found, -⟩ := exists_arg mem arity
    obtain ⟨a', found', expands⟩ := args.left found
    rw [Ty.inst_param found mem, Ty.inst_param found' mem]
    exact expands
  | applied plain len _ ih =>
    intro ps written arity
    rw [Ty.inst_app, Ty.inst_app]
    obtain ⟨len, each⟩ := lists len fun i b b' hb hb' =>
      ih i b b' hb hb' (written.arg (List.mem_of_getElem? hb)) arity
    exact .applied plain len each
  | replaced head rhs len _ _ ih =>
    intro ps written arity
    rw [Ty.inst_app, (ha.classTerm rhs (ha.rhs _ head).1).inst_inst (len ▸ written.arity)]
    obtain ⟨len, each⟩ := lists len fun i b b' hb hb' =>
      ih i b b' hb hb' (written.arg (List.mem_of_getElem? hb)) arity
    exact .replaced head rhs len each

end Aliased

/-! ## The class at the head -/

/-- The second type is the first one with the aliases at its head expanded, `n` of them, and no
others. -/
inductive HeadForm (t : SymbolTable) : Nat → Ty → Ty → Prop where
  | plain {pkg c : SymbolId} {as : List Ty} (plain : t.IsPlainClass c) :
      HeadForm t 0 (.ref (.this pkg) c as) (.ref (.this pkg) c as)
  | step {n : Nat} {pkg a : SymbolId} {as : List Ty} {e : Ty} (head : t.IsAlias a) (rest : HeadForm
      t n ((t.info a).inst (t.tparams a) as) e) : HeadForm t (n + 1) (.ref (.this pkg) a as) e

/-- Every chain of aliases from `a` on has at most `n` of them. -/
def AliasWithin (t : SymbolTable) (n : Nat) (a : SymbolId) : Prop :=
  ∀ as, List.IsChain t.AliasStep (a :: as) → as.length < n

theorem Aliased.within (ha : t.Aliased) (a : SymbolId) : t.AliasWithin 60 a :=
    fun as h => ha.chains (a :: as) h

theorem AliasWithin.step {n : Nat} (h : t.AliasWithin (n + 1) a) (hb : t.AliasStep a b) :
    t.AliasWithin n b := by
  intro as has
  have longer := h (b :: as) (.cons_cons hb has)
  simpa using longer

theorem not_aliasWithin_zero (a : SymbolId) : ¬ t.AliasWithin 0 a :=
    fun h => absurd (h [] (.singleton a)) (by simp)

namespace HeadForm

variable {n : Nat} {l e : Ty} (h : t.HeadForm n l e)
include h

theorem shape : ∃ pkg c as, e = .ref (.this pkg) c as ∧ t.IsPlainClass c := by
  induction h with
  | plain plain => exact ⟨_, _, _, rfl, plain⟩
  | step _ _ ih => exact ih

theorem ne_of_isAlias (head : t.IsAlias a) : e ≠ .ref (.this pkg) a as := by
  obtain ⟨_, _, _, rfl, plain⟩ := h.shape
  intro eq
  cases eq
  exact plain.not_isAlias head

theorem written (ha : t.Aliased) (written : t.Written ps l) : t.Written ps e := by
  induction h with
  | plain => exact written
  | step head _ ih => exact ih ((ha.rhs _ head).1.inst written.arity fun a => written.arg)

theorem expands (ha : t.Aliased) (written : t.Written ps l)
    (expands : t.Expands l l') : t.Expands e l' := by
  induction h with
  | plain => exact expands
  | step head _ ih =>
    refine ih ((ha.rhs _ head).1.inst written.arity fun a => written.arg) ?_
    cases expands with
    | applied plain => exact absurd head plain.not_isAlias
    | replaced _ rhs len args =>
      exact ha.expands_inst rhs ⟨len, args⟩ (ha.rhs _ head).1 written.arity

end HeadForm

theorem AliasWithin.exists_headForm (ha : t.Aliased) {k : Nat} (head : t.IsAlias a)
    (within : t.AliasWithin k a) : ∃ n e, n ≤ k ∧ t.HeadForm n (.ref (.this pkg) a as) e := by
  induction k generalizing pkg a as with
  | zero => exact absurd within (not_aliasWithin_zero a)
  | succ k ih =>
    obtain ⟨written, pkg', b, gs, rhs⟩ := ha.rhs a head
    have step : ∀ {n e}, t.HeadForm n (.ref (.this pkg') b (gs.map (Ty.inst (t.tparams a) as))) e →
        t.HeadForm (n + 1) (.ref (.this pkg) a as) e := by
      intro n e rest
      refine .step head ?_
      rwa [rhs, Ty.inst_app]
    rw [rhs] at written
    obtain plain | next := written.applied.2.1
    · exact ⟨1, _, by omega, step (.plain plain)⟩
    · obtain ⟨n, e, le, rest⟩ := ih next (within.step ⟨head, next, pkg', gs, rhs⟩)
      exact ⟨n + 1, e, by omega, step rest⟩

/-- Every type has a class at its head in the end. -/
theorem Aliased.exists_headForm (ha : t.Aliased) (written : t.Written ps (.ref (.this pkg) c as)) :
    ∃ n e, n ≤ 60 ∧ t.HeadForm n (.ref (.this pkg) c as) e := by
  obtain plain | head := written.applied.2.1
  · exact ⟨0, _, by omega, .plain plain⟩
  · exact (ha.within c).exists_headForm ha head

/-! ## Acceptance and expansion -/

/-- The supertype that is found for a type stands for the one that is found for its expansion. -/
theorem Nearest.expands (ht : t.Plain) (ha : t.Aliased)
    {d : SymbolId} {bs : List Ty} (hl : t.Applied pkg c as)
    (args : t.ExpandsAll as as') (h : t.Nearest d (.ref (.this pkg) c as) bs) :
    ∃ bs', t.ExpandsAll bs bs' ∧ t.Nearest d (.ref (.this pkg) c as') bs' := by
  generalize eq : Ty.ref (.this pkg) c as = l at h
  induction h generalizing pkg c as as' with
  | here =>
    cases eq
    exact ⟨as', args, .here⟩
  | @up _ c as _ _ other plain first _ ih =>
    cases eq
    obtain ⟨_, _, gs, rfl, -, term, applied⟩ := ht.super_applied
      hl (List.mem_of_find?_eq_some first)
    rw [Ty.inst_app] at ih
    have next : t.ExpandsAll (gs.map (Ty.inst (t.tparams c) as))
      (gs.map (Ty.inst (t.tparams c) as')) := by
      refine ⟨by simp, fun i x x' hx hx' => ?_⟩
      obtain ⟨g, hg, rfl⟩ := by simpa using hx
      obtain rfl : g.inst (t.tparams c) as' = x' := by simpa [hg] using hx'
      have termArg := term.arg (List.mem_of_getElem? hg)
      exact ha.expands_inst termArg.expands args termArg.written hl.arity
    obtain ⟨bs', expands, found⟩ := ih applied next rfl
    exact ⟨bs', expands, .up other plain first (by rw [Ty.inst_app]; exact found)⟩

/-! ## Checking that aliases stand for class types -/

section Check

variable (t)

mutual
/-- The type is written over `ps`, and its aliases have identifiers below `bound`. -/
def isWritten (ps : List SymbolId) (bound : Nat) : Ty → Bool
  | .ref .noPrefix p [] => ps.contains p && !decide (t.IsAlias p)
  | .ref (.this pkg) c args =>
    decide (t.IsPackage pkg) && (decide (t.IsPlainClass c) || decide (t.IsAlias c) &&
      decide (c.val < bound)) && args.length == (t.tparams c).length && areWritten ps bound args
  | _ => false

def areWritten (ps : List SymbolId) (bound : Nat) : List Ty → Bool
  | [] => true
  | ty :: tys => isWritten ps bound ty && areWritten ps bound tys
end

mutual
theorem written_of_check : ∀ ty, t.isWritten ps bound ty = true →
    t.Written ps ty ∧ ∀ b, t.IsAlias b → ty.Names b → b.val < bound
  | .ref .noPrefix p [], h => by
    simp only [isWritten, Bool.and_eq_true, List.contains_iff_mem,
      Bool.not_eq_true', decide_eq_false_iff_not] at h
    refine ⟨.param h.1, fun b hb names => ?_⟩
    cases names with
    | here => exact absurd hb h.2
    | arg mem => cases mem
  | .ref (.this pkg) c args, h => by
    simp only [isWritten, Bool.and_eq_true, Bool.or_eq_true, decide_eq_true_eq, beq_iff_eq] at h
    obtain ⟨⟨⟨package, head⟩, arity⟩, rest⟩ := h
    have each := areWritten_of_check args rest
    refine ⟨.app package (head.imp_right And.left) arity fun a ha =>
      (each a ha).1, fun b hb names => ?_⟩
    cases names with
    | here => exact head.elim (fun plain => absurd hb plain.not_isAlias) And.right
    | arg mem names => exact (each _ mem).2 b hb names

theorem areWritten_of_check : ∀ tys, t.areWritten ps bound tys = true →
    ∀ ty ∈ tys, t.Written ps ty ∧ ∀ b, t.IsAlias b → ty.Names b → b.val < bound
  | [], _ => by simp
  | ty :: tys, h => by
    simp only [areWritten, Bool.and_eq_true] at h
    exact List.forall_mem_cons.2 ⟨written_of_check ty h.1, areWritten_of_check tys h.2⟩
end

/-- The expansion of a type, if it is reached within `n` levels. -/
def expandUpTo : Nat → Ty → Option Ty
  | 0, _ => none
  | n + 1, ty =>
    match ty with
    | .ref .noPrefix p [] => some (.ref .noPrefix p [])
    | .ref (.this pkg) c args => do
      let args' ← args.mapM (expandUpTo n)
      if t.IsPlainClass c then return .ref (.this pkg) c args'
      else if t.IsAlias c then return (← expandUpTo n (t.info c)).inst (t.tparams c) args'
      else none
    | _ => none

variable {t}

theorem ExpandsAll.of_mapM {f : Ty → Option Ty} (hf : ∀ a a', f a = some a' → t.Expands a a')
    (h : as.mapM f = some as') : t.ExpandsAll as as' := by
  induction as generalizing as' with
  | nil =>
    cases h
    exact .nil
  | cons a as ih =>
    rw [List.mapM_cons] at h
    obtain ⟨a', ha, h⟩ := Option.bind_eq_some_iff.1 h
    obtain ⟨rest, hrest, h⟩ := Option.bind_eq_some_iff.1 h
    cases h
    exact .cons (hf a a' ha) (ih hrest)

theorem expands_of_check {n : Nat} (h : t.expandUpTo n ty = some ty') : t.Expands ty ty' := by
  induction n generalizing ty ty' with
  | zero => cases h
  | succ n ih =>
    unfold expandUpTo at h
    split at h
    · cases h
      exact .param
    · obtain ⟨args', hargs, h⟩ := Option.bind_eq_some_iff.1 h
      obtain ⟨len, each⟩ := ExpandsAll.of_mapM (fun _ _ => ih) hargs
      split at h
      · next plain =>
        cases h
        exact .applied plain len each
      · split at h
        · next head =>
          obtain ⟨g, hg, h⟩ := Option.bind_eq_some_iff.1 h
          cases h
          exact .replaced head (ih hg) len each
        · cases h
    · cases h

/-- A right-hand side over the aliases declared before, in which parameters occur as their variances
allow. -/
def isRightHandSide (t : SymbolTable) (a : SymbolId) : Bool :=
  (match t.info a with
    | .ref (.this _) _ _ => true
    | _ => false) &&
  t.isWritten (t.tparams a) a.val (t.info a) &&
  match t.expandUpTo t.size (t.info a) with
  | some g => t.isOccurring true g
  | none => false

/-- The conditions on aliases, over the symbols of a small table that declares each alias after
those it names. -/
structure ListsAliases (t : SymbolTable) : Prop where
  small : t.size ≤ 60 ∧ t.kind .none ≠ .aliasType
  known : ∀ s ∈ [Known.nothing, Known.null, Known.singleton, Known.notNull], t.kind s ≠ .aliasType
  rhs : ∀ i ∈ List.range t.size, t.IsAlias ⟨i⟩ → t.isRightHandSide ⟨i⟩ = true

instance : Decidable t.ListsAliases :=
  decidable_of_iff (_ ∧ _ ∧ _) ⟨fun h => ⟨h.1, h.2.1, h.2.2⟩, fun h => ⟨h.small, h.known, h.rhs⟩⟩

namespace ListsAliases

variable (h : t.ListsAliases)
include h

theorem lt_size (head : t.IsAlias a) : a.val < t.size := by
  by_contra unknown
  refine h.small.2 ?_
  rw [SymbolTable.kind, ← get_of_size_le (Nat.not_lt.1 unknown)]
  exact head.kind

theorem isRightHandSide (head : t.IsAlias a) : (∃ pkg c args, t.info a = .ref (.this pkg) c args) ∧
    t.isWritten (t.tparams a) a.val (t.info a) = true ∧
      ∃ g, t.Expands (t.info a) g ∧ t.Occurs true g := by
  have check := h.rhs a.val (List.mem_range.2 (h.lt_size head)) head
  simp only [SymbolTable.isRightHandSide, Bool.and_eq_true] at check
  obtain ⟨⟨shape, written⟩, variances⟩ := check
  refine ⟨?_, written, ?_⟩
  · split at shape
    · next info => exact ⟨_, _, _, info⟩
    · cases shape
  · split at variances
    · next g expanded => exact ⟨g, expands_of_check expanded, occurs_of_check true g variances⟩
    · cases variances

theorem before (ha : t.IsAlias a) (hb : t.IsAlias b) (names : (t.info a).Names b) : b.val < a.val :=
  (t.written_of_check _ (h.isRightHandSide ha).2.1).2 b hb names

theorem chain {as : List SymbolId} (hs : List.IsChain t.AliasStep (a :: as)) :
    as.length ≤ a.val := by
  induction as generalizing a with
  | nil => simp
  | cons b as ih =>
    obtain ⟨⟨ha, hb, pkg, args, info⟩, rest⟩ := List.isChain_cons_cons.1 hs
    have lt : b.val < a.val := h.before ha hb (info ▸ .here)
    have le := ih rest
    rw [List.length_cons]
    omega

theorem aliased : t.Aliased where
  rhs a ha := ⟨(t.written_of_check _ (h.isRightHandSide ha).2.1).1, (h.isRightHandSide ha).1⟩
  acyclic := Subrelation.wf (fun step => h.before step.1 step.2.1 step.2.2)
    (InvImage.wf SymbolId.val Nat.lt_wfRel.wf)
  chains as hs := by
    cases as with
    | nil => simp
    | cons a as =>
      have le := h.chain hs
      cases as with
      | nil => simp
      | cons b as =>
        have known := h.lt_size (List.isChain_cons_cons.1 hs).1.1
        have small := h.small.1
        simp only [List.length_cons] at le ⊢
        omega
  variances a ha g expands := by
    obtain ⟨-, -, g', expands', occurs⟩ := h.isRightHandSide ha
    rwa [expands.unique expands']
  known := h.known

end ListsAliases

end Check

end SymbolTable

end Conformance

import Conformance.Checker.Query

/-! # What types and tables may name

A scope says which symbols a table of a given size may name, and which variables. It grows with the
table: a new symbol is in scope from then on. A table is closed if the records of symbols in scope
name only symbols and variables in scope. An operation on a closed table is `Safe` from the
`base`-th symbol on if it leaves the table closed and the records below the base as they are,
whether it answers or fails, and if its answer is as the contract says. Contracts are composed along
the operations' own structure. -/

namespace Conformance

theorem mem_of_lookup {κ β : Type} [BEq κ] [LawfulBEq κ]
    {xs : List (κ × β)} {k : κ} {v : β} (h : xs.lookup k = some v) : (k, v) ∈ xs := by
  obtain ⟨front, back, rfl, -⟩ := List.lookup_eq_some_iff.1 h
  exact List.mem_append_right _ List.mem_cons_self

/-- Every symbol that a type names satisfies `S` and every variable `V`, binders and bound ones
included. -/
inductive Ty.Over (S : SymbolId → Prop) (V : VarId → Prop) : Ty → Prop
  | noType : Over S V .noType
  | noPrefix : Over S V .noPrefix
  | error : Over S V .error
  | wildcard : Over S V .wildcard
  | dangling (key : Nat) : Over S V (.dangling key)
  | this {s : SymbolId} (hs : S s) : Over S V (.this s)
  | single {pre : Ty} {s : SymbolId} (hpre : Over S V pre) (hs : S s) : Over S V (.single pre s)
  | const (value : Constant) : Over S V (.const value)
  | ref {pre : Ty} {s : SymbolId} {args : List Ty} (hpre : Over S V pre) (hs : S s)
      (hargs : ∀ arg ∈ args, Over S V arg) : Over S V (.ref pre s args)
  | refined {parents : List Ty} {decls : List SymbolId} {cls : SymbolId}
      (hparents : ∀ parent ∈ parents, Over S V parent) (hdecls : ∀ d ∈ decls, S d) (hcls : S cls) :
      Over S V (.refined parents decls cls)
  | exist {quantified : List SymbolId} {body : Ty}
      (hq : ∀ s ∈ quantified, S s) (hbody : Over S V body) : Over S V (.exist quantified body)
  | annotated {annotations : List SymbolId} {body : Ty}
      (ha : ∀ s ∈ annotations, S s) (hbody : Over S V body) : Over S V (.annotated annotations body)
  | boundedWildcard {bounds : Ty} (h : Over S V bounds) : Over S V (.boundedWildcard bounds)
  | bounds {lo hi : Ty} (hlo : Over S V lo) (hhi : Over S V hi) : Over S V (.bounds lo hi)
  | method {params : List SymbolId} {result : Ty} {flags : MethodFlags} (hp : ∀ s ∈ params, S s)
      (hresult : Over S V result) : Over S V (.method params result flags)
  | nullary {result : Ty} (h : Over S V result) : Over S V (.nullary result)
  | poly {tparams : List SymbolId} {result : Ty} (hp : ∀ s ∈ tparams, S s)
      (hresult : Over S V result) : Over S V (.poly tparams result)
  | var {v : VarId} (hv : V v) : Over S V (.var v)
  | notNull {body : Ty} (h : Over S V body) : Over S V (.notNull body)

theorem Ty.Over.imp {S S' : SymbolId → Prop} {V V' : VarId → Prop} {ty : Ty} (h : ty.Over S V)
    (hS : ∀ s, S s → S' s) (hV : ∀ v, V v → V' v) : ty.Over S' V' := by
  induction h with
  | this hs => exact .this (hS _ hs)
  | single _ hs ih => exact .single ih (hS _ hs)
  | ref _ hs _ ih ihs => exact .ref ih (hS _ hs) ihs
  | refined _ hdecls hcls ihs => exact .refined ihs (fun d hd => hS _ (hdecls d hd)) (hS _ hcls)
  | exist hss _ ih | annotated hss _ ih | method hss _ ih | poly hss _ ih =>
    constructor
    · exact fun s hs => hS _ (hss s hs)
    · exact ih
  | var hv => exact .var (hV _ hv)
  | _ => constructor <;> assumption

section Decision

variable {S : SymbolId → Prop} {V : VarId → Prop} [DecidablePred S] [DecidablePred V]

mutual
/-- Whether a type is over `S` and `V` can be computed, like the two. -/
def Ty.decidableOver : (ty : Ty) → Decidable (ty.Over S V)
  | .noType => .isTrue .noType
  | .noPrefix => .isTrue .noPrefix
  | .error => .isTrue .error
  | .wildcard => .isTrue .wildcard
  | .dangling key => .isTrue (.dangling key)
  | .this s => decidable_of_iff (S s) ⟨.this, fun | .this h => h⟩
  | .single pre s =>
    have := pre.decidableOver
    decidable_of_iff (pre.Over S V ∧ S s) ⟨fun ⟨h, hs⟩ =>
      .single h hs, fun | .single h hs => ⟨h, hs⟩⟩
  | .const value => .isTrue (.const value)
  | .ref pre s args =>
    have := pre.decidableOver
    have := Ty.decidableOverAll args
    decidable_of_iff (pre.Over S V ∧ S s ∧ ∀ arg ∈ args, arg.Over S V)
      ⟨fun ⟨h, hs, hargs⟩ => .ref h hs hargs, fun | .ref h hs hargs => ⟨h, hs, hargs⟩⟩
  | .refined parents decls cls =>
    have := Ty.decidableOverAll parents
    decidable_of_iff ((∀ parent ∈ parents, parent.Over S V) ∧ (∀ d ∈ decls, S d) ∧ S cls)
      ⟨fun ⟨h, hdecls, hcls⟩ => .refined h hdecls hcls,
      fun | .refined h hdecls hcls => ⟨h, hdecls, hcls⟩⟩
  | .exist quantified body =>
    have := body.decidableOver
    decidable_of_iff ((∀ s ∈ quantified, S s) ∧ body.Over S V)
      ⟨fun ⟨hs, h⟩ => .exist hs h, fun | .exist hs h => ⟨hs, h⟩⟩
  | .annotated annotations body =>
    have := body.decidableOver
    decidable_of_iff ((∀ s ∈ annotations, S s) ∧ body.Over S V)
      ⟨fun ⟨hs, h⟩ => .annotated hs h, fun | .annotated hs h => ⟨hs, h⟩⟩
  | .boundedWildcard b =>
    have := b.decidableOver
    decidable_of_iff (b.Over S V) ⟨.boundedWildcard, fun | .boundedWildcard h => h⟩
  | .bounds lo hi =>
    have := lo.decidableOver
    have := hi.decidableOver
    decidable_of_iff (lo.Over S V ∧ hi.Over S V) ⟨fun ⟨hlo, hhi⟩ =>
      .bounds hlo hhi, fun | .bounds hlo hhi => ⟨hlo, hhi⟩⟩
  | .method params result _ =>
    have := result.decidableOver
    decidable_of_iff ((∀ s ∈ params, S s) ∧ result.Over S V)
      ⟨fun ⟨hs, h⟩ => .method hs h, fun | .method hs h => ⟨hs, h⟩⟩
  | .nullary result =>
    have := result.decidableOver
    decidable_of_iff (result.Over S V) ⟨.nullary, fun | .nullary h => h⟩
  | .poly tparams result =>
    have := result.decidableOver
    decidable_of_iff ((∀ s ∈ tparams, S s) ∧ result.Over S V)
      ⟨fun ⟨hs, h⟩ => .poly hs h, fun | .poly hs h => ⟨hs, h⟩⟩
  | .var v => decidable_of_iff (V v) ⟨.var, fun | .var h => h⟩
  | .notNull body =>
    have := body.decidableOver
    decidable_of_iff (body.Over S V) ⟨.notNull, fun | .notNull h => h⟩

def Ty.decidableOverAll : (tys : List Ty) → Decidable (∀ ty ∈ tys, ty.Over S V)
  | [] => .isTrue fun _ h => nomatch h
  | ty :: tys =>
    have := ty.decidableOver
    have := Ty.decidableOverAll tys
    decidable_of_iff (ty.Over S V ∧ ∀ ty' ∈ tys, ty'.Over S V) List.forall_mem_cons.symm
end

instance : DecidablePred (Ty.Over S V) := Ty.decidableOver

end Decision

/-- Number of the symbols that every table starts with. -/
def Known.count : Nat := 24

/-- Which symbols a table of a given size may name, and which variables. -/
structure Scope where
  has : Nat → SymbolId → Prop
  var : VarId → Prop
  /-- The size that tables start with, at least. -/
  base : Nat := 0
  /-- Are records asked to have their companions in scope, too? -/
  companions : Prop := True
  known {n : Nat} {s : SymbolId} : s.val < Known.count → has n s
  mono {n m : Nat} {s : SymbolId} : n ≤ m → has n s → has m s
  fresh {n : Nat} : base ≤ n → has (n + 1) ⟨n⟩
  /-- Nothing but the new symbol comes into scope. -/
  old {n : Nat} {s : SymbolId} : has (n + 1) s → has n s ∨ s = ⟨n⟩

/-- Values that name symbols and variables. -/
class Scoped (α : Type) where
  inScope : Scope → Nat → α → Prop
  mono {sc : Scope} {n m : Nat} {a : α} : n ≤ m → inScope sc n a → inScope sc m a

/-- The value names only what a table of size `n` may name. -/
def Scope.In {α : Type} [Scoped α] (sc : Scope) (n : Nat) (a : α) : Prop := Scoped.inScope sc n a

theorem Scope.In.mono {α : Type} [Scoped α] {sc : Scope}
    {n m : Nat} {a : α} (h : sc.In n a) (hnm : n ≤ m) : sc.In m a := Scoped.mono hnm h

section Values

variable {α β : Type} [Scoped α] [Scoped β] {sc : Scope} {n : Nat} {x : α} {xs : List α}

instance : Scoped SymbolId := ⟨fun sc n s => sc.has n s, fun hnm h => Scope.mono _ hnm h⟩

instance : Scoped VarId := ⟨fun sc _ v => sc.var v, fun _ h => h⟩

instance : Scoped Ty := ⟨fun sc n ty => ty.Over (sc.has n) sc.var, fun hnm h =>
    h.imp (fun _ => Scope.mono _ hnm) fun _ h => h⟩

instance : Scoped Bool := ⟨fun _ _ _ => True, fun _ h => h⟩

instance : Scoped Unit := ⟨fun _ _ _ => True, fun _ h => h⟩

instance : Scoped (List α) :=
    ⟨fun sc n xs => ∀ x ∈ xs, sc.In n x, fun hnm h x hx => (h x hx).mono hnm⟩

instance : Scoped (Option α) :=
    ⟨fun sc n o => ∀ a ∈ o, sc.In n a, fun hnm h a ha => (h a ha).mono hnm⟩

instance : Scoped (α × β) :=
    ⟨fun sc n p => sc.In n p.1 ∧ sc.In n p.2, fun hnm h => ⟨h.1.mono hnm, h.2.mono hnm⟩⟩

namespace Scope.In

theorem nil : sc.In n ([] : List α) := fun _ h => nomatch h

theorem cons (hx : sc.In n x) (hxs : sc.In n xs) : sc.In n (x :: xs) :=
  fun y hy => (List.mem_cons.1 hy).elim (· ▸ hx) (hxs y)

theorem append {ys : List α} (hx : sc.In n xs) (hy : sc.In n ys) : sc.In n (xs ++ ys) :=
  fun z hz => (List.mem_append.1 hz).elim (hx z) (hy z)

theorem head (h : sc.In n (x :: xs)) : sc.In n x := h x List.mem_cons_self

theorem tail (h : sc.In n (x :: xs)) : sc.In n xs :=
  fun y hy => h y (List.mem_cons_of_mem _ hy)

theorem subset {ys : List α} (h : sc.In n ys) (hsub : ∀ x ∈ xs, x ∈ ys) : sc.In n xs :=
  fun x hx => h x (hsub x hx)

theorem filter (h : sc.In n xs) (p : α → Bool) : sc.In n (xs.filter p) :=
  h.subset fun _ hx => (List.mem_filter.1 hx).1

theorem zip {ys : List β} (hx : sc.In n xs) (hy : sc.In n ys) : sc.In n (xs.zip ys) :=
  fun p hp => ⟨hx p.1 (List.of_mem_zip (by exact hp)).1, hy p.2 (List.of_mem_zip (by exact hp)).2⟩

theorem map {f : α → β} (hx : sc.In n xs) (hf : ∀ x, sc.In n x → sc.In n (f x)) :
    sc.In n (xs.map f) := by
  intro y hy
  obtain ⟨x, mem, rfl⟩ := List.mem_map.1 hy
  exact hf x (hx x mem)

theorem none : sc.In n (none : Option α) := fun _ h => nomatch h

theorem some {a : α} (h : sc.In n a) : sc.In n (some a) := fun _ hb => Option.some.inj hb ▸ h

end Scope.In

end Values

theorem Scope.in_none (sc : Scope) (n : Nat) : sc.In n SymbolId.none := sc.known (by decide)

/-- A record that names only what a table of size `n` may name. -/
structure Scope.Fits (sc : Scope) (n : Nat) (r : SymbolRecord) : Prop where
  owner : sc.In n r.owner
  tparams : sc.In n r.tparams
  info : sc.In n r.info
  parents : sc.In n r.parents
  decls : sc.In n r.decls.toList
  companion : sc.companions → sc.In n r.companion

theorem Scope.Fits.mono {sc : Scope} {n m : Nat} {r : SymbolRecord}
    (h : sc.Fits n r) (hnm : n ≤ m) : sc.Fits m r :=
  ⟨h.owner.mono hnm, h.tparams.mono hnm, h.info.mono hnm, h.parents.mono hnm, h.decls.mono hnm,
    fun asked => (h.companion asked).mono hnm⟩

/-- What is in scope names only what is in scope. -/
structure Scope.Closed (sc : Scope) (t : SymbolTable) : Prop where
  base : sc.base ≤ t.size
  records {s : SymbolId} : sc.In t.size s → sc.Fits t.size (t.get s)
  linearized {s : SymbolId} {classes : List SymbolId} :
    (s, classes) ∈ t.linearized → (s.val < t.size → sc.In t.size s) → sc.In t.size classes

/-! ## Everything in scope -/

/-- The scope that leaves nothing out. -/
def Scope.all : Scope where
  has _ _ := True
  var _ := True
  known _ := trivial
  mono _ h := h
  fresh _ := trivial
  old _ := .inl trivial

theorem Ty.over_all {S : SymbolId → Prop} {V : VarId → Prop}
    (hS : ∀ s, S s) (hV : ∀ v, V v) : ∀ ty : Ty, ty.Over S V
  | .this s => .this (hS s)
  | .single pre s => .single (over_all hS hV pre) (hS s)
  | .ref pre s args => .ref (over_all hS hV pre) (hS s) fun arg _ => over_all hS hV arg
  | .refined parents _ cls => .refined (fun parent _ => over_all hS hV parent)
    (fun d _ => hS d) (hS cls)
  | .exist _ body | .annotated _ body | .method _ body _ | .poly _ body => by
    constructor
    · exact fun s _ => hS s
    · exact over_all hS hV body
  | .boundedWildcard body | .nullary body | .notNull body => by
    constructor
    exact over_all hS hV body
  | .bounds lo hi => .bounds (over_all hS hV lo) (over_all hS hV hi)
  | .var v => .var (hV v)
  | .noType | .noPrefix | .error | .wildcard | .dangling _ | .const _ => by constructor

namespace Scope

variable {n : Nat}

theorem all_sym (s : SymbolId) : all.In n s := trivial

theorem all_syms (ss : List SymbolId) : all.In n ss := fun _ _ => trivial

theorem all_ty (ty : Ty) : all.In n ty := ty.over_all (fun _ => trivial) fun _ => trivial

theorem all_tys (tys : List Ty) : all.In n tys := fun ty _ => all_ty ty

theorem all_closed (t : SymbolTable) : all.Closed t :=
  ⟨Nat.zero_le _, fun _ => ⟨all_sym _, all_syms _, all_ty _, all_tys _, all_syms _, fun _ =>
    all_sym _⟩, fun _ _ => all_syms _⟩

end Scope

namespace SymbolTable

theorem get_eq_getD (t : SymbolTable) (s : SymbolId) :
    t.get s = (t.records[s.val]?).getD ((t.records[0]?).getD .absent) := by
  simp only [SymbolTable.get, Array.getD_eq_getD_getElem?]

/-- An unknown identifier reads the record of the absent symbol. -/
theorem get_of_size_le {t : SymbolTable} {s : SymbolId}
    (hs : t.size ≤ s.val) : t.get s = t.get .none := by
  have unknown : t.records[s.val]? = none := Array.getElem?_eq_none hs
  rw [get_eq_getD, get_eq_getD, unknown]
  show _ = (t.records[0]?).getD _
  cases t.records[0]? <;> rfl

/-- Records below `base` are kept and new records are numbered on. -/
structure Extends (base : Nat) (t t' : SymbolTable) : Prop where
  size_le : t.size ≤ t'.size
  kept {i : Nat} : i < base → t'.records[i]? = t.records[i]?
  ids {i : Nat} : i < t.size → (t'.records[i]?).map (·.id) = (t.records[i]?).map (·.id)
  new {i : Nat} : t.size ≤ i → i < t'.size → (t'.records[i]?).map (·.id) = some ⟨i⟩

namespace Extends

variable {b : Nat} {t t1 t2 t3 : SymbolTable}

theorem of_records {t' : SymbolTable} (h : t'.records = t.records) : Extends b t t' := by
  have size : t'.size = t.size := congrArg Array.size h
  exact ⟨Nat.le_of_eq size.symm, fun _ => by rw [h], fun _ => by rw [h], fun hi hi' =>
    absurd hi' (by omega)⟩

theorem refl (b : Nat) (t : SymbolTable) : Extends b t t := of_records rfl

theorem trans (h : Extends b t1 t2) (h' : Extends b t2 t3) : Extends b t1 t3 := by
  refine ⟨Nat.le_trans h.size_le h'.size_le, fun hi => (h'.kept hi).trans (h.kept hi),
    fun hi => (h'.ids (Nat.lt_of_lt_of_le hi h.size_le)).trans (h.ids hi), fun {i} hi hi' => ?_⟩
  by_cases hold : i < t2.size
  · exact (h'.ids hold).trans (h.new hi hold)
  · exact h'.new (Nat.le_of_not_lt hold) hi'

theorem weaken {b' : Nat} (h : Extends b t1 t2) (hb : b' ≤ b) : Extends b' t1 t2 :=
  ⟨h.size_le, fun hi => h.kept (Nat.lt_of_lt_of_le hi hb), h.ids, h.new⟩

theorem next (h : t1.Extends t1.size t2) (h' : t2.Extends t2.size t3) : t1.Extends t1.size t3 :=
  h.trans (h'.weaken h.size_le)

theorem get_eq (h : Extends t.size t t2) {s : SymbolId}
    (hs : s.val < t.size) : t2.get s = t.get s := by
  have first : t2.records[0]? = t.records[0]? := h.kept (Nat.lt_of_le_of_lt (Nat.zero_le _) hs)
  rw [get_eq_getD, get_eq_getD, h.kept hs, first]

end Extends

variable (t : SymbolTable)

@[simp] theorem size_add (r : SymbolRecord) : (t.add r).size = t.size + 1 := Array.size_push ..

@[simp] theorem size_update (s : SymbolId) (f : SymbolRecord → SymbolRecord) :
    (t.update s f).size = t.size :=
  Array.size_modify ..

theorem getElem?_add (r : SymbolRecord) (i : Nat) :
    (t.add r).records[i]? = if i = t.size then some { r with id := t.nextId } else t.records[i]? :=
  Array.getElem?_push ..

theorem getElem?_update (c : SymbolId) (f : SymbolRecord → SymbolRecord) (i : Nat) :
    (t.update c f).records[i]? = if c.val = i then (t.records[i]?).map f else t.records[i]? :=
  Array.getElem?_modify ..

theorem get_add_self (r : SymbolRecord) : (t.add r).get t.nextId = { r with id := t.nextId } := by
  rw [get_eq_getD, getElem?_add, if_pos (show t.nextId.val = t.size from rfl)]
  rfl

theorem get_add (r : SymbolRecord) (s : SymbolId) :
    (t.add r).get s = t.get s ∨ (t.add r).get s = { r with id := t.nextId } := by
  rw [get_eq_getD, get_eq_getD, getElem?_add, getElem?_add]
  by_cases hs : s.val = t.size
  · rw [if_pos hs]
    exact .inr rfl
  rw [if_neg hs]
  by_cases h0 : 0 = t.size
  · have none : t.records[s.val]? = none := Array.getElem?_eq_none
      (by rw [show t.records.size = 0 from h0.symm]; omega)
    rw [if_pos h0, none]
    exact .inr rfl
  · rw [if_neg h0]
    exact .inl rfl

theorem get_update (c : SymbolId) (f : SymbolRecord → SymbolRecord) (s : SymbolId) :
    (t.update c f).get s = t.get s ∨ (t.update c f).get s = f (t.get s) := by
  rw [get_eq_getD, get_eq_getD, getElem?_update, getElem?_update]
  cases hs : t.records[s.val]? with
  | some r =>
    split
    · exact .inr rfl
    · exact .inl rfl
  | none =>
    -- an unknown symbol is read as the first one
    cases h0 : t.records[0]? with
    | none => simp
    | some r =>
      simp only [Option.map_none, ite_self, Option.getD_none]
      split
      · exact .inr rfl
      · exact .inl rfl

theorem extends_add {b : Nat} (hb : b ≤ t.size) (r : SymbolRecord) : Extends b t (t.add r) := by
  have push : ∀ i, i < t.size → (t.add r).records[i]? = t.records[i]? := fun i hi => by
    rw [getElem?_add, if_neg (Nat.ne_of_lt hi)]
  refine ⟨by simp, fun hi => push _ (Nat.lt_of_lt_of_le hi hb),
    fun hi => by rw [push _ hi], fun {i} hi hi' => ?_⟩
  obtain rfl : i = t.size := by
    rw [size_add] at hi'
    omega
  rw [getElem?_add, if_pos rfl]
  rfl

theorem extends_update {b : Nat} {c : SymbolId} (hc : b ≤ c.val) {f : SymbolRecord → SymbolRecord}
    (hf : ∀ r, (f r).id = r.id) : Extends b t (t.update c f) := by
  refine ⟨by simp, fun {i} hi => ?_, fun {i} _ => ?_, fun hi hi' =>
    absurd hi' (by rw [size_update]; omega)⟩
  · rw [getElem?_update, if_neg (by omega)]
  · rw [getElem?_update]
    split
    · cases t.records[i]? with
      | none => rfl
      | some r => exact congrArg some (hf r)
    · rfl

end SymbolTable

end Conformance

import Conformance.Proofs.Classes.Contract
import Conformance.Proofs.Binders.Renaming

/-! # Binders that differ in their names

Each rule for types with binders puts both sides under one naming before it compares them. If the
two sides are one type under every naming, it asks only whether a type is the same as itself. Such a
question is answered `true`, unless the guard refuses it. The rules for methods leave out the
parameter types, which they compare as they are. -/

namespace Conformance

open SymbolTable SymM CheckM

variable {t : SymbolTable} {fuel : Nat} {ps1 ps2 : List SymbolId} {cfg : Config}

/-! ## Questions answered `true` -/

namespace CheckM

/-- Wherever the declarations of `t` are, with `n` levels left, `x` is answered, with `true` unless
the guard refused an entry. -/
def Affirms (t : SymbolTable) (n : Nat) (x : CheckM Bool) : Prop :=
  Settles (t.Extends t.size ·) n True x (fun _ => True) (· = true)

namespace Affirms

variable {t : SymbolTable} {n : Nat}

theorem pure : Affirms t n (Pure.pure true) := Settles.pure trivial rfl

theorem ite {c : Prop} [Decidable c] {x y : CheckM Bool} (hx : c → Affirms t n x)
    (hy : ¬ c → Affirms t n y) : Affirms t n (if c then x else y) := Settles.ite hx hy

theorem and {x y : CheckM Bool} (hx : Affirms t n x) (hy : Affirms t n y) :
    Affirms t n (x >>= fun b => if !b then Pure.pure false else y) := by
  refine Settles.bind hx fun b _ => ?_
  cases b with
  | false => exact .pure trivial nofun
  | true => exact Settles.imp hy (fun _ h => h) fun _ _ h _ => h

theorem allM {α : Type} {f : α → CheckM Bool} {as : List α}
    (h : ∀ a ∈ as, Affirms t n (f a)) : Affirms t n (as.allM f) :=
  (Settles.allM (A := fun _ => True) (B := fun _ => True) fun a mem =>
    (h a mem).imp (fun _ _ _ => trivial) fun _ _ h _ => h).imp (fun _ _ => trivial) fun _ _ h =>
      h fun _ _ => trivial

theorem onTable_bind {α : Type} {x : SymM α} {f : α → CheckM Bool} {P : α → Prop}
    (hx : Attains (t.Extends t.size ·) True x P) (hf : ∀ a, P a → Affirms t n (f a)) :
    Affirms t n (onTable x >>= f) := Settles.onTable_bind hx hf

theorem readTable_bind {f : SymbolTable → CheckM Bool}
    (hf : ∀ t1, t.Extends t.size t1 → Affirms t n (f t1)) : Affirms t n (readTable >>= f) :=
    Settles.readTable_bind hf

end Affirms

end CheckM

/-- A type is the same as itself, and conforms to itself. -/
structure Queries.Identifies (q : Queries) (t : SymbolTable) (n : Nat) : Prop where
  same (ty : Ty) : Affirms t n (q.same ty ty)
  sub (ty : Ty) (depth : Depth) : Affirms t n (q.sub ty ty depth)

theorem Config.queriesUpTo_identifies (cfg : Config)
    (t : SymbolTable) (n : Nat) : (cfg.queriesUpTo n).Identifies t n := by
  cases n with
  | zero =>
    exact ⟨fun ty => .query Guard.admits_enterUntracked _ _ trivial nofun,
      fun ty depth => .query (Guard.admits_enter _) _ _ trivial nofun⟩
  | succ n =>
    refine ⟨fun ty => .query Guard.admits_enterUntracked _ _ trivial fun m _ => ?_,
      fun ty depth => .query (Guard.admits_enter _) _ _ trivial fun m _ => ?_⟩
    · exact .ite (fun _ => .pure trivial rfl) fun other => absurd (by simp) other
    · exact .ite (fun _ => .pure trivial rfl) fun other => absurd (by simp) other

/-! ## One type under every naming -/

namespace SymbolTable

/-- Wherever the declarations of `t` are, renaming `x` gives `y`. -/
def Renames (t : SymbolTable) (fuel : Nat) (src dst : List SymbolId) (x y : Ty) : Prop :=
  Attains (t.Extends t.size ·) True (substSym fuel src dst x) (· = y)

/-- `x1` with the parameters `ps1` is `x2` with the parameters `ps2`, under every naming. -/
structure Alike (t : SymbolTable) (fuel : Nat) (ps1 ps2 : List SymbolId) (x1 x2 : Ty) : Prop where
  renamed (names : List SymbolId) : names.length = ps1.length →
    ∃ y, t.Renames fuel ps1 names x1 y ∧ t.Renames fuel ps2 names x2 y
  left : t.Renames fuel ps1 ps2 x1 x2
  right : t.Renames fuel ps2 ps1 x2 x1

theorem Alike.symm {x1 x2 : Ty} (length : ps1.length = ps2.length)
    (h : t.Alike fuel ps1 ps2 x1 x2) : t.Alike fuel ps2 ps1 x2 x1 := by
  refine ⟨fun names len => ?_, h.right, h.left⟩
  obtain ⟨y, runs1, runs2⟩ := h.renamed names (len.trans length.symm)
  exact ⟨y, runs2, runs1⟩

/-- Parameters of the same variances and bounds, which can be copied. -/
structure Twins (t : SymbolTable) (fuel : Nat) (ps1 ps2 : List SymbolId) : Prop where
  length : ps1.length = ps2.length
  entered : ∀ pair ∈ ps1.zip ps2, pair.1.val < t.size ∧ pair.2.val < t.size
  variance : ∀ pair ∈ ps1.zip ps2, (t.get pair.1).variance = (t.get pair.2).variance
  bounds : ∀ pair ∈ ps1.zip ps2, t.Alike fuel ps1 ps2 (t.paramBounds pair.1) (t.paramBounds pair.2)
  copied : Attains (t.Extends t.size ·) True (cloneSymbols fuel ps1) fun cs =>
    cs.length = ps1.length

theorem mem_zip_swap {pair : SymbolId × SymbolId} (mem : pair ∈ ps2.zip ps1) :
    pair.swap ∈ ps1.zip ps2 := by
  obtain ⟨i, hi⟩ := List.mem_iff_getElem?.1 mem
  obtain ⟨first, second⟩ := List.getElem?_zip_eq_some.1 hi
  exact List.mem_iff_getElem?.2 ⟨i, List.getElem?_zip_eq_some.2 ⟨second, first⟩⟩

theorem Twins.symm (h : t.Twins fuel ps1 ps2) (copied : Attains (t.Extends t.size ·)
    True (cloneSymbols fuel ps2) fun cs => cs.length = ps2.length) : t.Twins fuel ps2 ps1 where
  length := h.length.symm
  entered _ mem := (h.entered _ (mem_zip_swap mem)).symm
  variance _ mem := (h.variance _ (mem_zip_swap mem)).symm
  bounds _ mem := (h.bounds _ (mem_zip_swap mem)).symm h.length
  copied := copied

theorem Extends.paramBounds_eq {t1 : SymbolTable} (h : t.Extends t.size t1)
    {s : SymbolId} (hs : s.val < t.size) : t1.paramBounds s = t.paramBounds s := by
  rw [paramBounds, paramBounds, boundsOf, boundsOf, SymbolTable.info, SymbolTable.info, h.get_eq hs]

/-- Parameters of the same types. -/
structure SameParams (t : SymbolTable) (ps1 ps2 : List SymbolId) : Prop where
  length : ps1.length = ps2.length
  entered : ∀ pair ∈ ps1.zip ps2, pair.1.val < t.size ∧ pair.2.val < t.size
  infos : ∀ pair ∈ ps1.zip ps2, t.info pair.1 = t.info pair.2

theorem SameParams.symm (h : t.SameParams ps1 ps2) : t.SameParams ps2 ps1 where
  length := h.length.symm
  entered _ mem := (h.entered _ (mem_zip_swap mem)).symm
  infos _ mem := (h.infos _ (mem_zip_swap mem)).symm

theorem SameParams.info_eq {t1 : SymbolTable} (h : t.SameParams ps1 ps2) (ht1 : t.Extends t.size t1)
    {pair : SymbolId × SymbolId} (mem : pair ∈ ps1.zip ps2) : t1.info pair.1 = t1.info pair.2 := by
  obtain ⟨entered1, entered2⟩ := h.entered pair mem
  rw [SymbolTable.info, SymbolTable.info, ht1.get_eq entered1, ht1.get_eq entered2]
  exact h.infos pair mem

/-- Wherever the declarations of `t` are, the symbol of the type is found. -/
def FindsSymbol (t : SymbolTable) (fuel : Nat) (ty : Ty) : Prop :=
  ∀ t1, t.Extends t.size t1 → ∃ s t2, typeSymbol fuel ty t1 = .ok s t2

theorem FindsSymbol.supplies {ty : Ty} (h : t.FindsSymbol fuel ty) :
    Attains (t.Extends t.size ·) True (typeSymbol fuel ty) fun _ => True := by
  refine .of_run fun t1 ht1 => ?_
  obtain ⟨s, t2, run⟩ := h t1 ht1
  have grown : t1.Extends t1.size t2 := (TypeOperation.run_onlyBuilds fuel (.typeSymbol ty)).extends
    run
  exact ⟨s, t2, run, ht1.next grown, trivial⟩

/-- The symbol of the type stands in it, under `n` wrappers. -/
inductive Heads (t : SymbolTable) : Nat → Ty → Prop where
  | ref {pre : Ty} {s : SymbolId} {args : List Ty} (entered : s.val < t.size)
      (notAlias : (t.get s).isAliasType = false) : Heads t 0 (.ref pre s args)
  | refined {parents : List Ty} {decls : List SymbolId}
    {cls : SymbolId} : Heads t 0 (.refined parents decls cls)
  | this {s : SymbolId} : Heads t 0 (.this s)
  | exist {n : Nat} {qs : List SymbolId} {body : Ty}
    (rest : Heads t n body) : Heads t (n + 1) (.exist qs body)
  | annotated {n : Nat} {as : List SymbolId} {body : Ty}
    (rest : Heads t n body) : Heads t (n + 1) (.annotated as body)
  | notNull {n : Nat} {body : Ty} (rest : Heads t n body) : Heads t (n + 1) (.notNull body)
  | nullary {n : Nat} {result : Ty} (rest : Heads t n result) : Heads t (n + 1) (.nullary result)
  | poly {n : Nat} {ps : List SymbolId} {result : Ty}
    (rest : Heads t n result) : Heads t (n + 1) (.poly ps result)

theorem Heads.findsSymbol {n : Nat} {ty : Ty} (h : t.Heads n ty)
    (short : n < Limits.aliasSteps) (fuel : Nat) : t.FindsSymbol fuel ty := by
  intro t1 ht1
  have found : ∀ {k}, n < k → ∃ s, typeSymbolUpTo fuel k ty t1 = .ok s t1 := by
    clear short
    induction h with
    | @ref pre s args entered notAlias =>
      intro k lt
      obtain ⟨k, rfl⟩ : ∃ j, k = j + 1 := ⟨k - 1, by omega⟩
      have read : record s t1 = .ok (t1.get s) t1 := rfl
      refine ⟨s, ?_⟩
      unfold typeSymbolUpTo
      dsimp only
      rw [bind_ok read, ht1.get_eq entered, notAlias]
      rfl
    | refined | this =>
      intro k lt
      obtain ⟨k, rfl⟩ : ∃ j, k = j + 1 := ⟨k - 1, by omega⟩
      exact ⟨_, rfl⟩
    | exist _ ih | annotated _ ih | notNull _ ih | nullary _ ih | poly _ ih =>
      intro k lt
      obtain ⟨k, rfl⟩ : ∃ j, k = j + 1 := ⟨k - 1, by omega⟩
      exact ih (by omega)
  obtain ⟨s, run⟩ := found short
  exact ⟨s, t1, run⟩

end SymbolTable

/-! ## Rules -/

/-- Where annotations are compared, there is nothing to say about types without any. -/
def Config.AcceptsBare (cfg : Config) : Prop :=
  cfg.policy.checkAnnotations = true → ∀ (l r : Ty) (t : SymbolTable), l.annotations = [] →
    r.annotations = [] → cfg.annotations l r t = .ok true t

theorem Config.acceptsBare_of_typeConstraints (h : cfg.annotations = .typeConstraints) :
    cfg.AcceptsBare := by
  intro _ l r t _ hr
  rw [h]
  show EStateM.Result.ok (r.annotations.all _) t = _
  rw [hr]
  rfl

theorem annotationsConform_affirms (bare : cfg.AcceptsBare)
    {n : Nat} {l r : Ty} (hl : l.annotations = [])
    (hr : r.annotations = []) : Affirms t n (annotationsConform cfg l r) := by
  refine .ite (fun check => ?_) fun _ => .pure
  have accepted : Attains (t.Extends t.size ·) True (cfg.annotations l r) (· = true) :=
    .of_run fun t1 ht1 => ⟨true, t1, bare check l r t1 hl hr, ht1, rfl⟩
  exact Settles.imp (.onTable (Q := (· = true)) accepted id fun _ => id)
    (fun _ _ => trivial) fun _ _ => id

section Rules

variable {cfg : Config} {q : Queries} {t : SymbolTable}
  {n : Nat} (hq : q.Identifies t n) {ps1 ps2 : List SymbolId} {x1 x2 : Ty}
include hq

theorem sameBinders_affirms (twins : t.Twins cfg.fuel ps1 ps2)
    (body : t.Alike cfg.fuel ps1 ps2 x1 x2) : Affirms t n (sameBinders cfg q ps1 x1 ps2 x2) := by
  refine .ite (fun ne => absurd twins.length (by simpa using ne)) fun _ =>
    .and (.allM fun pair mem => ?_) ?_
  · refine .readTable_bind fun t1 ht1 => ?_
    obtain ⟨entered1, entered2⟩ := twins.entered pair mem
    rw [ht1.paramBounds_eq entered1, ht1.paramBounds_eq entered2]
    refine .onTable_bind (twins.bounds pair mem).right fun y same => ?_
    rw [same]
    exact hq.same _
  · refine .onTable_bind body.right fun y same => ?_
    rw [same]
    exact hq.same _

theorem sameMethods_affirms (params : t.SameParams ps1 ps2) (body : t.Alike cfg.fuel ps1 ps2 x1 x2)
    (flags : MethodFlags) : Affirms t n (sameMethods cfg q ps1 x1 flags ps2 x2 flags) := by
  refine .ite (fun ne => absurd ne (by simp)) fun _ => .readTable_bind fun t1 ht1 => .and ?_ ?_
  · refine .ite (fun _ => .allM fun pair mem => ?_) fun ne =>
      absurd params.length (by simpa using ne)
    rw [List.zip_map] at mem
    obtain ⟨names, hnames, rfl⟩ := List.mem_map.1 mem
    show Affirms t n (q.same (t1.info names.1) (t1.info names.2))
    rw [params.info_eq ht1 hnames]
    exact hq.same _
  · refine .onTable_bind body.right fun y same => ?_
    rw [same]
    exact hq.same _

theorem methodConforms_affirms (params : t.SameParams ps1 ps2)
    (found : ∀ p ∈ ps2, t.FindsSymbol cfg.fuel (t.info p))
    (body : t.Alike cfg.fuel ps1 ps2 x1 x2) (flags : MethodFlags)
    (depth : Depth) : Affirms t n (methodConforms cfg q ps1 x1 flags ps2 x2 flags depth) := by
  refine .ite (fun ne => absurd params.length (by simpa using ne)) fun _ =>
    .and (.allM fun pair mem => ?_) ?_
  · refine .readTable_bind fun t1 ht1 => ?_
    have info : t1.info pair.2 = t.info pair.2 := by
      rw [SymbolTable.info, ht1.get_eq (params.entered pair mem).2, SymbolTable.info]
    have symbol := (found pair.2 (List.of_mem_zip mem).2).supplies
    rw [params.info_eq ht1 mem, info]
    refine .onTable_bind symbol fun s1 _ => .onTable_bind symbol fun s2 _ =>
      Settles.bind (hq.same _) fun b _ => ?_
    cases b with
    | false => exact .pure trivial fun no => absurd no Bool.false_ne_true
    | true => exact .pure trivial fun _ => rfl
  · refine .onTable_bind body.left fun y same => ?_
    rw [same]
    exact hq.sub _ depth

/-- Both sides are put under one naming, which may be that of the left. -/
theorem lambdaConforms_affirms (twins : t.Twins cfg.fuel ps1 ps2)
    (body : t.Alike cfg.fuel ps1 ps2 x1 x2) {names : List SymbolId}
    (length : names.length = ps1.length) {renameLeft : Bool}
    (own : renameLeft = false → names = ps1) (depth : Depth) :
    Affirms t n (lambdaConforms cfg q names ps1 x1 ps2 x2 renameLeft depth) := by
  have named : ∀ {y1 y2}, t.Alike cfg.fuel ps1 ps2 y1 y2 →
      ∃ y, t.Renames cfg.fuel ps2 names y2 y ∧ Attains (t.Extends t.size ·)
      True (if renameLeft then substSym cfg.fuel ps1 names y1 else pure y1) (· = y) := by
    intro y1 y2 alike
    cases renameLeft with
    | true =>
      obtain ⟨y, runs1, runs2⟩ := alike.renamed names length
      exact ⟨y, runs2, runs1⟩
    | false =>
      rw [own rfl]
      exact ⟨y1, alike.right, .pure rfl⟩
  refine .and (.allM fun pair mem => ?_) ?_
  · obtain ⟨entered1, entered2⟩ := twins.entered pair mem
    obtain ⟨y, right, left⟩ := named (twins.bounds pair mem)
    refine .readTable_bind fun t1 ht1 => ?_
    rw [ht1.paramBounds_eq entered2]
    refine .onTable_bind right fun y2 same2 => .readTable_bind fun t2 ht2 => ?_
    rw [ht2.paramBounds_eq entered1]
    refine .onTable_bind left fun y1 same1 => ?_
    rw [same1, same2]
    exact hq.sub y depth
  · obtain ⟨y, right, left⟩ := named body
    refine .onTable_bind left fun y1 same1 => .onTable_bind right fun y2 same2 => ?_
    rw [same1, same2]
    exact hq.sub y depth

theorem constructorsConform_affirms (bare : cfg.AcceptsBare) (twins : t.Twins cfg.fuel ps1 ps2)
    (body : t.Alike cfg.fuel ps1 ps2 x1 x2) (found1 : t.FindsSymbol cfg.fuel (.poly ps1 x1))
    (found2 : t.FindsSymbol cfg.fuel (.poly ps2 x2)) (depth : Depth) :
    Affirms t n (constructorsConform cfg q (.poly ps1 x1) (.poly ps2 x2) depth) := by
  refine .onTable_bind found1.supplies fun s1 _ => .ite (fun _ => .pure) fun _ => ?_
  refine .onTable_bind found2.supplies fun s2 _ => .ite (fun _ => .pure) fun _ => ?_
  have normal : ∀ ps x, Attains (t.Extends t.size ·) True (normalize cfg.fuel (.poly ps x))
    (· = .poly ps x) :=
    fun ps x => .pure rfl
  refine .onTable_bind (normal ps1 x1) fun norm1 same1 =>
    .onTable_bind (normal ps2 x2) fun norm2 same2 => ?_
  subst same1 same2
  refine .ite (fun ne => absurd twins.length (by simpa using ne)) fun _ =>
    .readTable_bind fun t1 ht1 => ?_
  have variances : t1.variancesConform ps1 ps2 = true := by
    refine List.all_eq_true.2 fun pair mem => ?_
    obtain ⟨entered1, entered2⟩ := twins.entered pair mem
    simp only [ht1.get_eq entered1, ht1.get_eq entered2,
      twins.variance pair mem, beq_self_eq_true, Bool.or_true]
  refine .ite (fun differ => absurd differ (by simp [variances])) fun _ => ?_
  have annotations : Affirms t n (annotationsConform cfg (.poly ps1 x1) (.poly ps2 x2)) :=
    annotationsConform_affirms bare rfl rfl
  -- parameters of a method are the naming themselves
  refine .ite (fun _ => ?_) fun copying => .onTable_bind twins.copied fun names length => ?_
  · exact .and (lambdaConforms_affirms hq twins body rfl (fun _ => rfl) depth) annotations
  · refine .and (lambdaConforms_affirms hq twins body length (fun own => absurd ?_ copying) depth)
      annotations
    simpa using own

end Rules

/-- The types that bind symbols. -/
inductive BinderForm where
  | poly
  | method (flags : MethodFlags)
  | exist

namespace BinderForm

def type (ps : List SymbolId) (x : Ty) : BinderForm → Ty
  | .poly => .poly ps x
  | .method flags => .method ps x flags
  | .exist => .exist ps x

/-- What has to be known of the parameters where they are compared as they are. -/
def Agrees (t : SymbolTable) (ps1 ps2 : List SymbolId) : BinderForm → Prop
  | .method _ => t.SameParams ps1 ps2
  | .poly | .exist => True

/-- Conformance asks for the symbols of type lambdas and of the parameters of methods; of
existential types it asks more. -/
def Comparable (cfg : Config) (t : SymbolTable) (ps : List SymbolId) (x : Ty) : BinderForm → Prop
  | .poly => cfg.AcceptsBare ∧ t.FindsSymbol cfg.fuel (.poly ps x)
  | .method _ => ∀ p ∈ ps, t.FindsSymbol cfg.fuel (t.info p)
  | .exist => False

variable {cfg : Config} {q : Queries} {t : SymbolTable} {n : Nat}
  (hq : q.Identifies t n) {ps1 ps2 : List SymbolId} {x1 x2 : Ty} (twins : t.Twins cfg.fuel ps1 ps2)
  (body : t.Alike cfg.fuel ps1 ps2 x1 x2) {form : BinderForm} (agrees : form.Agrees t ps1 ps2)
include hq twins body agrees

theorem sameStep_affirms : Affirms t n (sameStep cfg q (form.type ps1 x1) (form.type ps2 x2)) := by
  have settled : ∀ {x : CheckM Bool}, Affirms t n x → Settles (t.Extends t.size ·)
      n True (do return some (← x)) (fun a => ∃ b, a = some b) (· = some true) :=
    fun hx => hx.bind fun b _ => .pure ⟨b, rfl⟩ fun same => congrArg some same
  have shape : Settles (t.Extends t.size ·) n True (sameShape cfg q (form.type ps1 x1)
      (form.type ps2 x2)) (fun a => ∃ b, a = some b) (· = some true) := by
    cases form with
    | poly => exact settled (sameBinders_affirms hq twins body)
    | method flags => exact settled (sameMethods_affirms hq agrees body flags)
    | exist => exact settled (sameBinders_affirms hq twins body)
  cases form with
  | poly | method flags | exist =>
    refine .ite (fun _ => .pure) fun _ => shape.bind fun a settles => ?_
    obtain ⟨b, rfl⟩ := settles
    exact .pure trivial fun same => Option.some.inj same

theorem subStep_affirms (comparable1 : form.Comparable cfg t ps1 x1)
    (comparable2 : form.Comparable cfg t ps2 x2) (depth : Depth) :
    Affirms t n (subStep cfg q (form.type ps1 x1) (form.type ps2 x2) depth) := by
  cases form with
  | poly =>
    refine .ite (fun _ => .pure) fun _ => .readTable_bind fun t1 _ => ?_
    exact constructorsConform_affirms hq comparable1.1 twins body comparable1.2 comparable2.2 depth
  | method flags =>
    refine .ite (fun _ => .pure) fun _ => .readTable_bind fun t1 _ => ?_
    exact methodConforms_affirms hq agrees comparable2 body flags depth
  | exist => exact comparable1.elim

end BinderForm

/-- A question that is answered, with `true` unless the guard refused an entry. -/
def CheckM.Granted (x : CheckM Bool) (s : CheckState) : Prop :=
    ∃ b s', x s = .ok b s' ∧ (b = true ∨ Counted s s')

theorem Config.withQueries_granted {f : Queries → CheckM Bool} {s : CheckState}
    (h : Affirms t (Config.levelsLeft s) (f (cfg.queriesUpTo (Config.levelsLeft s))))
    (hs : t.Extends t.size s.table) : Granted (cfg.withQueries f) s := by
  obtain ⟨b, s', run, -, -, yes⟩ := h.answers s hs (by rw [Config.levelsLeft]; omega)
  exact ⟨b, s', run, yes.symm⟩

section Queries

variable {cfg : Config} {t : SymbolTable} {n : Nat} {ps1 ps2 : List SymbolId} {x1 x2 : Ty}
  (twins : t.Twins cfg.fuel ps1 ps2) (body : t.Alike cfg.fuel ps1 ps2 x1 x2) {form : BinderForm}
  (agrees : form.Agrees t ps1 ps2) {s : CheckState} (hs : t.Extends t.size s.table)
include twins body agrees hs

theorem Config.isSameType_granted : Granted (cfg.isSameType (form.type ps1 x1) (form.type ps2 x2))
    s := by
  refine Config.withQueries_granted (t := t) ?_ hs
  cases Config.levelsLeft s with
  | zero => exact .query Guard.admits_enterUntracked _ _ trivial nofun
  | succ n =>
    refine .query Guard.admits_enterUntracked _ _ trivial fun m levels => ?_
    obtain rfl : n = m := Nat.succ.inj levels
    exact BinderForm.sameStep_affirms (cfg.queriesUpTo_identifies t n) twins body agrees

theorem Config.isSubtype_granted (comparable1 : form.Comparable cfg t ps1 x1)
    (comparable2 : form.Comparable cfg t ps2 x2) :
    Granted (cfg.isSubtype (form.type ps1 x1) (form.type ps2 x2)) s := by
  show Granted (cfg.isSubtypeDepth (form.type ps1 x1) (form.type ps2 x2) .unlimited) s
  refine Config.withQueries_granted (t := t) ?_ hs
  cases Config.levelsLeft s with
  | zero => exact .query (Guard.admits_enter _) _ _ trivial nofun
  | succ n =>
    refine .query (Guard.admits_enter _) _ _ trivial fun m levels => ?_
    obtain rfl : n = m := Nat.succ.inj levels
    exact BinderForm.subStep_affirms (cfg.queriesUpTo_identifies t n)
      twins body agrees comparable1 comparable2 .unlimited

end Queries

end Conformance

import Conformance.Proofs.Run
import Mathlib.Data.List.Forall2

/-! # Operations that keep an invariant of the table

Contracts of single runs. Linearization computes the classes of a symbol from those of its parents,
so a contract for it says what holds of them, and which symbols it may be asked for. -/

namespace Conformance

theorem eq_map_of_forall₂ {α β : Type} {f : α → β}
    {as : List α} {bs : List β} (h : List.Forall₂ (fun a b => b = f a) as bs) : bs = as.map f := by
  rw [← List.forall₂_eq_eq_eq, List.forall₂_map_right_iff]
  exact h.flip

theorem exists_of_forall₂ {α β : Type} {R : α → β → Prop} {as : List α}
    {bs : List β} (h : List.Forall₂ R as bs) {b : β} (hb : b ∈ bs) : ∃ a ∈ as, R a b := by
  induction h with
  | nil => cases hb
  | cons first _ ih =>
    obtain rfl | mem := List.mem_cons.1 hb
    · exact ⟨_, List.mem_cons_self, first⟩
    · obtain ⟨a, ha, hab⟩ := ih mem
      exact ⟨a, List.mem_cons_of_mem _ ha, hab⟩

namespace SymbolTable

variable {t t' : SymbolTable}

theorem get_congr (h : t'.records = t.records) (s : SymbolId) :
    t'.get s = t.get s := by rw [get, h, get]

theorem parentClass_of_records (h : t'.records = t.records) : t'.parentClass = t.parentClass := by
  have get_eq : t'.get = t.get := funext (get_congr h)
  funext ty
  unfold parentClass
  generalize Limits.aliasSteps = n
  induction n generalizing ty with
  | zero => rfl
  | succ n ih => cases ty <;> simp [parentClassUpTo, info, get_eq, ih]

end SymbolTable

namespace SymM

variable {α β : Type} {f : α → SymM β} {as : List α}

/-- The table that an operation ends with, with or without an answer. -/
def after (x : SymM α) (t : SymbolTable) : SymbolTable :=
  match x t with
  | .ok _ t' => t'
  | .error _ t' => t'

/-- A class with one type parameter, which its parents may name. -/
def newGeneric (owner : SymbolId) (name param : String) (variance : Variance)
    (parents : Ty → List Ty) : SymM SymbolId := do
  let c ← newClass owner name .empty
  let p ← newTypeParam c param variance
  modify fun t => (t.setTParams c [p]).setParents c (parents (.ref .noPrefix p []))
  return c

/-- From every table as `I` says, `x` leads to such a table again, with a result as `P` says. It
fails only if `ok` does not hold. -/
def Attains (I : SymbolTable → Prop) (ok : Prop) (x : SymM α) (P : α → Prop) : Prop :=
  ∀ t, I t → match x t with
    | .ok a t' => I t' ∧ P a
    | .error .. => ¬ ok

namespace Attains

variable {I : SymbolTable → Prop} {ok : Prop} {x y : SymM α} {P Q : α → Prop}

theorem pure {a : α} (h : P a) : Attains I ok (Pure.pure a) P := fun _ ht => ⟨ht, h⟩

theorem fail {e : Failure} (h : ¬ ok) : Attains I ok (throw e : SymM α) P := fun _ _ => h

theorem bind {Q : β → Prop} (hx : Attains I ok x P)
    (hf : ∀ a, P a → Attains I ok (f a) Q) : Attains I ok (x >>= f) Q := by
  intro t ht
  have run := hx t ht
  show match EStateM.bind x f t with | .ok a t' => I t' ∧ Q a | .error .. => ¬ ok
  unfold EStateM.bind
  generalize x t = r at run ⊢
  cases r with
  | ok a t' => exact hf a run.2 t' run.1
  | error e t' => exact run

theorem imp (hx : Attains I ok x P) (h : ∀ a, P a → Q a) : Attains I ok x Q := by
  intro t ht
  have run := hx t ht
  generalize x t = r at run ⊢
  cases r with
  | ok a t' => exact ⟨run.1, h a run.2⟩
  | error e t' => exact run

theorem of_ok {ok' : Prop} (hx : Attains I ok' x P) (h : ok → ok') : Attains I ok x P := by
  intro t ht
  have run := hx t ht
  generalize x t = r at run ⊢
  cases r with
  | ok a t' => exact run
  | error e t' => exact fun hok => run (h hok)

theorem run {t : SymbolTable} (hx : Attains I ok x P)
    (ht : I t) (hok : ok) : ∃ a t', x t = .ok a t' ∧ I t' ∧ P a := by
  have run := hx t ht
  generalize x t = r at run ⊢
  cases r with
  | ok a t' => exact ⟨a, t', rfl, run⟩
  | error e t' => exact absurd hok run

theorem of_run (h : ∀ t, I t → ∃ a t', x t = .ok a t' ∧ I t' ∧ P a) : Attains I ok x P := by
  intro t ht
  obtain ⟨a, t', run, kept⟩ := h t ht
  rw [run]
  exact kept

theorem ite {c : Prop} [Decidable c] (hx : c → Attains I ok x P) (hy : ¬ c → Attains I ok y P) :
    Attains I ok (if c then x else y) P := by
  split
  next hc => exact hx hc
  next hc => exact hy hc

theorem get : Attains I ok MonadState.get I := fun _ ht => ⟨ht, ht⟩

theorem get_bind {f : SymbolTable → SymM α} (hf : ∀ t, I t → Attains I ok (f t) P) :
    Attains I ok (MonadState.get >>= f) P :=
  fun t ht => hf t ht t ht

theorem record_bind {s : SymbolId} {f : SymbolRecord → SymM α}
    (hf : ∀ t, I t → Attains I ok (f (t.get s)) P) : Attains I ok (record s >>= f) P :=
    fun t ht => hf t ht t ht

theorem any : Attains (fun _ => True) False x fun _ => True := by
  intro t _
  split
  · exact ⟨trivial, trivial⟩
  · exact id

theorem mapM {R : α → β → Prop} (h : ∀ a ∈ as, Attains I ok (f a) (R a)) :
    Attains I ok (as.mapM f) (List.Forall₂ R as) := by
  induction as with
  | nil => exact .pure .nil
  | cons a as ih =>
    rw [List.mapM_cons]
    refine (h a List.mem_cons_self).bind fun b hb => ?_
    refine (ih fun c hc => h c (List.mem_cons_of_mem _ hc)).bind fun bs hbs => ?_
    exact .pure (.cons hb hbs)

theorem mapM_eq {g : α → β} (h : ∀ a ∈ as, Attains I ok (f a) (· = g a)) :
    Attains I ok (as.mapM f) (· = as.map g) :=
  (mapM (R := fun a b => b = g a) h).imp fun _ => eq_map_of_forall₂

theorem foldlM {f : β → α → SymM β} (R : β → Prop) (h : ∀ b, R b → ∀ a ∈ as, Attains I ok (f b a) R)
    {b : β} (hb : R b) : Attains I ok (as.foldlM f b) R := by
  induction as generalizing b with
  | nil => exact .pure hb
  | cons a as ih =>
    rw [List.foldlM_cons]
    exact (h b hb a List.mem_cons_self).bind fun b' hb' =>
      ih (fun b hb c hc => h b hb c (List.mem_cons_of_mem _ hc)) hb'

end Attains

end SymM

/-! ## Linearization -/

/-- A class, then the classes that its parents contribute. -/
def SymbolTable.headed (s : SymbolId) (tail : List SymbolId) : List SymbolId :=
  s :: if tail.contains s then tail.filter (· != s) else tail

namespace SymM

open SymbolTable

variable {I : SymbolTable → Prop} {s : SymbolId}

theorem mixIn_nil (cs : List SymbolId) : mixIn [] cs = cs := by simp [mixIn]

theorem mem_mixIn (tail added : List SymbolId) (d : SymbolId) :
    d ∈ mixIn tail added ↔ d ∈ tail ∨ d ∈ added := by
  by_cases h : d ∈ tail <;> simp [mixIn, h]

theorem mem_mixIns {A : SymbolId → Prop} {d : SymbolId} {ms : List SymbolId}
    {css : List (List SymbolId)} (h : List.Forall₂ (fun m cs => d ∈ cs ↔ A m) ms css)
    (tail : List SymbolId) : d ∈ css.foldl mixIn tail ↔ d ∈ tail ∨ ∃ m ∈ ms, A m := by
  induction h generalizing tail with
  | nil => simp
  | cons first _ ih =>
    rw [List.foldl_cons, ih, mem_mixIn, first]
    simp [or_assoc]

/-- What a class inherits comes from its first parent as from the others: it is added to what is
there. -/
theorem linearize_run (n : Nat) (active : List SymbolId) (s : SymbolId) (t : SymbolTable) :
    linearize n active s t = (show SymM (List SymbolId) from match t.linearization? s, n with
      | some cs, _ => pure cs
      | none, 0 => pure []
      | none, n + 1 => if (t.get s).isClass = true ∧ s ∉ active then do
          let tail ← (((t.get s).parents.map t.parentClass).filter (·.isPresent)).foldlM
            (fun tail m => return mixIn tail (← linearize n (s :: active) m)) []
          modify (·.rememberLinearization s (headed s tail))
          return headed s tail
        else pure []) t := by
  have read : ∀ {β} (f : SymbolTable → SymM β), (get >>= f) t = f t t := fun _ => rfl
  conv_lhs => unfold linearize
  rw [read]
  cases t.linearization? s with
  | some cs => cases n <;> rfl
  | none =>
    dsimp only
    rw [read]
    cases isClass : (t.get s).isClass with
    | false => cases n <;> simp
    | true =>
      cases n with
      | zero => rfl
      | succ n =>
        by_cases mem : s ∈ active
        · simp [mem]
        simp only [Bool.not_true, Bool.false_eq_true,
          if_false, List.contains_iff_mem, mem, true_and, not_false_eq_true, if_true]
        rw [read]
        cases (t.get s).parents.map t.parentClass with
        | nil => rfl
        | cons p ps =>
          cases present : p.isPresent with
          | false => simp [present, headed]
          | true => simp [present, headed, List.foldlM_cons, mixIn_nil]

/-- A linearization is found, is empty, or is computed from those of the parents. -/
theorem linearize_attains {V : Nat → List SymbolId → SymbolId → Prop}
    {R : SymbolId → List SymbolId → Prop}
    (found : ∀ {t n active s cs}, I t → V n active s → t.linearization? s = some cs → R s cs)
    (stop : ∀ {t n active s}, I t → V n active s → t.linearization? s = none →
      ((t.get s).isClass = true → n = 0 ∨ s ∈ active) → R s [])
    (step : ∀ {t n active s}, I t → V (n + 1) active s →
      t.linearization? s = none → (t.get s).isClass = true → s ∉ active →
      (∀ p ∈ (t.get s).parents.map t.parentClass, p.isPresent = true → V n (s :: active) p) ∧
        ∀ css, List.Forall₂ R (((t.get s).parents.map t.parentClass).filter (·.isPresent)) css →
          R s (headed s (css.foldl mixIn [])) ∧
          ∀ t', I t' → I (t'.rememberLinearization s (headed s (css.foldl mixIn []))))
    {n : Nat} {active : List SymbolId} (valid : V n active s) :
      Attains I True (linearize n active s) (R s) := by
  induction n generalizing active s with
  | zero =>
    intro t ht
    rw [linearize_run]
    cases lookup : t.linearization? s with
    | some cs => exact ⟨ht, found ht valid lookup⟩
    | none => exact ⟨ht, stop ht valid lookup fun _ => .inl rfl⟩
  | succ n ih =>
    intro t ht
    rw [linearize_run]
    cases lookup : t.linearization? s with
    | some cs => exact ⟨ht, found ht valid lookup⟩
    | none =>
      by_cases inherits : (t.get s).isClass = true ∧ s ∉ active
      · obtain ⟨below, finish⟩ := step ht valid lookup inherits.1 inherits.2
        simp only [inherits, not_false_eq_true, and_self, if_true]
        -- each parent adds its classes to those of the parents before it
        have loop : ∀ ms done css, List.Forall₂ R done css → (∀ m ∈ ms, Attains
            I True (linearize n (s :: active) m) (R m)) → Attains I True (ms.foldlM
            (fun tail m => return mixIn tail (← linearize n (s :: active) m)) (css.foldl mixIn []))
              fun tail => ∃ css, List.Forall₂ R (done ++ ms) css ∧ tail = css.foldl mixIn [] := by
          intro ms
          induction ms with
          | nil => exact fun done css h _ => .pure ⟨css, by rwa [List.append_nil], rfl⟩
          | cons m ms ihms =>
            intro done css h hms
            rw [List.foldlM_cons, bind_assoc]
            refine (hms m List.mem_cons_self).bind fun cs hcs => ?_
            have more := ihms (done ++ [m]) (css ++ [cs])
              (List.rel_append h (.cons hcs .nil)) fun m' hm' =>
              hms m' (List.mem_cons_of_mem _ hm')
            rwa [List.foldl_append, List.append_assoc] at more
        refine Attains.bind (loop _ [] [] .nil fun m hm => ?_) (fun tail ⟨css, hcss, eq⟩ => ?_) t ht
        · exact ih (below m (List.mem_filter.1 hm).1 (List.mem_filter.1 hm).2)
        · obtain ⟨result, remember⟩ := finish css hcss
          rw [eq]
          exact fun t' ht' => ⟨remember t' ht', result⟩
      · simp only [inherits, if_false]
        refine ⟨ht, stop ht valid lookup fun isClass => .inr ?_⟩
        by_contra outside
        exact inherits ⟨isClass, outside⟩

/-- A linearization is found, and the declarations stay. -/
theorem exists_linearize (n : Nat) (active : List SymbolId) (s : SymbolId) (t : SymbolTable) :
    ∃ cs t', linearize n active s t = .ok cs t' ∧ t'.records = t.records := by
  have found : Attains (·.records = t.records) True (linearize n active s) fun _ => True :=
    linearize_attains (V := fun _ _ _ => True) (R := fun _ _ => True)
      (fun _ _ _ => trivial) (fun _ _ _ _ => trivial)
      (fun _ _ _ _ _ => ⟨fun _ _ _ => trivial, fun _ _ => ⟨trivial, fun _ => id⟩⟩) trivial
  obtain ⟨cs, t', run, same, -⟩ := found.run rfl trivial
  exact ⟨cs, t', run, same⟩

end SymM

/-! ## Renaming a symbol -/

section Renaming

variable {src dst : List SymbolId} {s d : SymbolId}

theorem renamedSymbol?_of_notMem (h : s ∉ src) (dst : List SymbolId) :
    renamedSymbol? src dst s = pure none := by
  rw [renamedSymbol?, List.idxOf?_eq_none_iff.2 h]

theorem renamedSymbol?_of_mem (mem : s ∈ src) (hd : dst[src.idxOf s]? = some d) :
    renamedSymbol? src dst s = pure (some d) := by
  have found : src.idxOf? s = some (src.idxOf s) := by
    cases hf : src.idxOf? s with
    | none => exact absurd mem (List.idxOf?_eq_none_iff.1 hf)
    | some i => rw [List.idxOf_eq_getD_idxOf?, hf]; rfl
  rw [renamedSymbol?, found]
  simp only [hd]

theorem renamedSymbol?_cases (length : src.length ≤ dst.length)
    (s : SymbolId) : (s ∉ src ∧ renamedSymbol? src dst s = pure none) ∨
    ∃ d ∈ dst, renamedSymbol? src dst s = pure (some d) := by
  by_cases mem : s ∈ src
  · have lt : src.idxOf s < dst.length := Nat.lt_of_lt_of_le
      (List.idxOf_lt_length_of_mem mem) length
    exact .inr ⟨_, List.getElem_mem lt, renamedSymbol?_of_mem mem (List.getElem?_eq_getElem lt)⟩
  · exact .inl ⟨mem, renamedSymbol?_of_notMem mem dst⟩

end Renaming

end Conformance

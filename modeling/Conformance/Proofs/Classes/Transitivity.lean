import Conformance.Proofs.Classes.Lookup

/-! # Conformance of class types

`Conforms` is the least preorder with the bottom types below, a class type below its declared
parents, and arguments compared by variance. `Decides` has no rule for transitivity: it compares
arguments at one base type. The two agree where declared parents respect the variances of the
parameters. The cut is eliminated by induction on one derivation, and for each by induction on the
other, since a type in the middle may be larger than both its neighbours. -/

namespace Conformance

variable {R : Ty → Ty → Prop} {as bs : List Ty} {l : Ty} {pkg d c : SymbolId} {up : Bool}

namespace SymbolTable

variable {t : SymbolTable} {ps : List SymbolId}

/-- The least relation closed under the rules of the language. -/
inductive Conforms (t : SymbolTable) : Ty → Ty → Prop where
  | refl {l : Ty} (closed : t.ClassType l) : Conforms t l l
  | trans {l m r : Ty} (left : Conforms t l m) (right : Conforms t m r) : Conforms t l r
  | nothing {pkg : SymbolId} {args : List Ty} {r : Ty}
      (closed : t.ClassType (.ref (.this pkg) Known.nothing args)) (closed' : t.ClassType r) :
      Conforms t (.ref (.this pkg) Known.nothing args) r
  | null {pkg pkg' d : SymbolId} {args args' : List Ty}
      (closed : t.ClassType (.ref (.this pkg) Known.null args))
      (closed' : t.ClassType (.ref (.this pkg') d args')) (admits : t.AdmitsNull d) :
      Conforms t (.ref (.this pkg) Known.null args) (.ref (.this pkg') d args')
  | parent {pkg c : SymbolId} {args : List Ty} {g : Ty}
      (closed : t.ClassType (.ref (.this pkg) c args))
      (declared : g ∈ t.supers c) : Conforms t (.ref (.this pkg) c args) (g.inst (t.tparams c) args)
  | args {pkg pkg' c : SymbolId} {as bs : List Ty} (closed : t.ClassType (.ref (.this pkg) c as))
      (closed' : t.ClassType (.ref (.this pkg') c bs))
      (co : ∀ (i : Nat) p a b, (t.tparams c)[i]? = some p → as[i]? = some a → bs[i]? = some b →
        (t.get p).variance ≠ .contravariant → Conforms t a b)
      (contra : ∀ (i : Nat) p a b, (t.tparams c)[i]? = some p → as[i]? = some a → bs[i]? = some b →
        (t.get p).variance ≠ .covariant → Conforms t b a) :
      Conforms t (.ref (.this pkg) c as) (.ref (.this pkg') c bs)

/-- Conformance decided at the base type on the left that has the class on the right. -/
inductive Decides (t : SymbolTable) : Ty → Ty → Prop where
  | nothing {pkg : SymbolId} {args : List Ty} {r : Ty} :
    Decides t (.ref (.this pkg) Known.nothing args) r
  | null {pkg pkg' d : SymbolId} {args args' : List Ty} (admits : t.AdmitsNull d) :
      Decides t (.ref (.this pkg) Known.null args) (.ref (.this pkg') d args')
  | base {l : Ty} {pkg d : SymbolId} {as bs : List Ty}
      (base : t.Base l d as) (len : as.length = bs.length)
      (co : ∀ (i : Nat) p a b, (t.tparams d)[i]? = some p → as[i]? = some a → bs[i]? = some b →
        (t.get p).variance ≠ .contravariant → Decides t a b)
      (contra : ∀ (i : Nat) p a b, (t.tparams d)[i]? = some p → as[i]? = some a → bs[i]? = some b →
        (t.get p).variance ≠ .covariant → Decides t b a) :
      Decides t l (.ref (.this pkg) d bs)

/-- Arguments for the parameters `ps`, each pair related as the variance demands. -/
structure Pointwise (t : SymbolTable) (R : Ty → Ty → Prop)
    (ps : List SymbolId) (as bs : List Ty) : Prop where
  len : as.length = bs.length
  co : ∀ (i : Nat) p a b, ps[i]? = some p → as[i]? = some a → bs[i]? = some b →
    (t.get p).variance ≠ .contravariant → R a b
  contra : ∀ (i : Nat) p a b, ps[i]? = some p → as[i]? = some a → bs[i]? = some b →
    (t.get p).variance ≠ .covariant → R b a

theorem Pointwise.comp {S T : Ty → Ty → Prop} {cs : List Ty} (h : t.Pointwise R ps as bs)
    (h' : t.Pointwise S ps bs cs) (up : ∀ {a b c}, R a b → S b c → T a c)
    (down : ∀ {a b c}, S a b → R b c → T a c) : t.Pointwise T ps as cs := by
  have middle : ∀ {i : Nat} {a}, as[i]? = some a → ∃ b, bs[i]? = some b := by
    intro i a ha
    have lt : i < bs.length := h.len ▸ (List.getElem?_eq_some_iff.1 ha).1
    exact ⟨bs[i], List.getElem?_eq_getElem lt⟩
  refine ⟨h.len.trans h'.len, fun i p a c hp ha hc hvar => ?_, fun i p a c hp ha hc hvar => ?_⟩
  · obtain ⟨b, hb⟩ := middle ha
    exact up (h.co i p a b hp ha hb hvar) (h'.co i p b c hp hb hc hvar)
  · obtain ⟨b, hb⟩ := middle ha
    exact down (h'.contra i p b c hp hb hc hvar) (h.contra i p a b hp ha hb hvar)

theorem Pointwise.imp {S : Ty → Ty → Prop} (h : t.Pointwise R ps as bs)
    (imp : ∀ {a b}, R a b → S a b) : t.Pointwise S ps as bs :=
  ⟨h.len, fun i p a b hp ha hb hvar => imp (h.co i p a b hp ha hb hvar),
    fun i p a b hp ha hb hvar => imp (h.contra i p a b hp ha hb hvar)⟩

theorem Pointwise.refl (h : ∀ a ∈ as, R a a) : t.Pointwise R ps as as := by
  refine ⟨rfl, fun i p a b _ ha hb _ => ?_, fun i p a b _ ha hb _ => ?_⟩
  all_goals
    obtain rfl : a = b := Option.some.inj (ha.symm.trans hb)
    exact h a (List.mem_of_getElem? ha)

theorem Pointwise.map {f g : Ty → Ty} (co : ∀ (i : Nat) p a, ps[i]? = some p →
      as[i]? = some a → (t.get p).variance ≠ .contravariant → R (f a) (g a))
      (contra : ∀ (i : Nat) p a, ps[i]? = some p → as[i]? = some a → (t.get p).variance ≠
      .covariant → R (g a) (f a)) : t.Pointwise R ps (as.map f) (as.map g) := by
  refine ⟨by simp, fun i p fa ga hp hfa hga hvar => ?_, fun i p fa ga hp hfa hga hvar => ?_⟩
  · obtain ⟨a, ha, rfl⟩ := by simpa using hfa
    obtain rfl : g a = ga := by simpa [ha] using hga
    exact co i p a hp ha hvar
  · obtain ⟨a, ha, rfl⟩ := by simpa using hfa
    obtain rfl : g a = ga := by simpa [ha] using hga
    exact contra i p a hp ha hvar

theorem Decides.of_args (base : t.Base l d as)
    (args : t.Pointwise t.Decides (t.tparams d) as bs) : t.Decides l (.ref (.this pkg) d bs) :=
  .base base args.len args.co args.contra

/-! ## Where parameters occur -/

/-- Parameters occur in a term where their variances allow it, the term standing covariantly (`up`)
or contravariantly. -/
inductive Occurs (t : SymbolTable) : Bool → Ty → Prop where
  | param {up : Bool} {p : SymbolId}
      (allowed : (t.get p).variance ≠ if up then .contravariant else .covariant) :
      Occurs t up (.ref .noPrefix p [])
  | app {up : Bool} {pkg c : SymbolId} {as : List Ty}
      (co : ∀ (i : Nat) p a, (t.tparams c)[i]? = some p → as[i]? = some a →
        (t.get p).variance ≠ .contravariant → Occurs t up a)
      (contra : ∀ (i : Nat) p a, (t.tparams c)[i]? = some p → as[i]? = some a →
        (t.get p).variance ≠ .covariant → Occurs t (!up) a) :
      Occurs t up (.ref (.this pkg) c as)

/-- Declared parents respect the variances of the parameters. -/
def RespectsVariance (t : SymbolTable) : Prop := ∀ c, t.IsPlainClass c →
    ∀ g ∈ t.supers c, t.Occurs true g

/-- A class type reaches each base class at one instantiation. -/
def OneInstantiation (t : SymbolTable) : Prop :=
  ∀ l, t.ClassType l → ∀ d as bs, t.Base l d as → t.Base l d bs → as = bs

/-- Terms put for the parameters of `c`, where the parameters occur. -/
theorem Occurs.inst {s : Bool} {g : Ty} (h : t.Occurs s g) (term : t.ClassTerm (t.tparams c) g)
    (arity : as.length = (t.tparams c).length) (args : t.Occurs up (.ref (.this pkg) c as)) :
    t.Occurs (s == up) (g.inst (t.tparams c) as) := by
  cases args with
  | app co contra =>
  induction h with
  | @param s p allowed =>
    cases term with
    | param mem =>
    obtain ⟨a, ha, hp⟩ := exists_arg mem arity
    rw [Ty.inst_param ha mem]
    cases s with
    | true =>
      rw [show (true == up) = up by simp]
      exact co _ p a hp ha allowed
    | false =>
      rw [show (false == up) = !up by simp]
      exact contra _ p a hp ha allowed
  | @app s _ _ _ _ _ ihco ihcontra =>
    rw [Ty.inst_app]
    refine .app (fun i p b hp hb hv => ?_) fun i p b hp hb hv => ?_
    · obtain ⟨a, ha, rfl⟩ := by simpa using hb
      exact ihco i p a hp ha hv (term.arg (List.mem_of_getElem? ha))
    · obtain ⟨a, ha, rfl⟩ := by simpa using hb
      have := ihcontra i p a hp ha hv (term.arg (List.mem_of_getElem? ha))
      rwa [show ((!s) == up) = !(s == up) by cases s <;> simp] at this

/-- Base types of an instantiated term are instances of base types of the term. -/
theorem Base.of_inst (ht : t.Plain) (hv : t.RespectsVariance) {gs ds : List Ty}
    (term : t.ClassTerm ps (.ref (.this pkg) c gs)) (occurs : t.Occurs up (.ref (.this pkg) c gs))
    (h : t.Base ((Ty.ref (.this pkg) c gs).inst ps as) d ds) :
    ∃ hs, ds = hs.map (Ty.inst ps as) ∧ t.Base (.ref (.this pkg) c gs) d hs ∧
      ∀ pkg', t.Occurs up (.ref (.this pkg') d hs) := by
  generalize eq : (Ty.ref (.this pkg) c gs).inst ps as = l at h
  induction h generalizing pkg c gs with
  | here =>
    rw [Ty.inst_app] at eq
    cases eq
    cases occurs with
    | app co contra => exact ⟨gs, rfl, .here, fun _ => .app co contra⟩
  | up plain parent _ ih =>
    rw [Ty.inst_app] at eq
    cases eq
    obtain ⟨pkg', e, gs', rfl, -, declared, next⟩ := ht.super_inst term parent
    have nextOccurs := (hv _ plain _ parent).inst declared term.arity occurs
    rw [← declared.inst_inst term.arity] at ih
    rw [Bool.true_beq] at nextOccurs
    rw [Ty.inst_app] at ih next nextOccurs
    obtain ⟨hs, rfl, base, occurs'⟩ := ih next nextOccurs rfl
    exact ⟨hs, rfl, .up plain parent (by rwa [Ty.inst_app]), occurs'⟩

theorem Base.inst (ht : t.Plain) {gs hs : List Ty} (term : t.ClassTerm ps (.ref (.this pkg) c gs))
    (h : t.Base (.ref (.this pkg) c gs) d hs) :
    t.Base ((Ty.ref (.this pkg) c gs).inst ps as) d (hs.map (Ty.inst ps as)) := by
  generalize eq : Ty.ref (.this pkg) c gs = l at h
  induction h generalizing pkg c gs with
  | here =>
    cases eq
    rw [Ty.inst_app]
    exact .here
  | up plain parent _ ih =>
    cases eq
    obtain ⟨pkg', e, gs', rfl, -, declared, next⟩ := ht.super_inst term parent
    rw [Ty.inst_app] at next
    have above := ih next (Ty.inst_app ..).symm
    rw [declared.inst_inst term.arity] at above
    rw [Ty.inst_app]
    exact .up plain parent above

/-! ## Cuts -/

/-- Derivations can be composed with `x` below `y` on both sides. -/
structure Cuts (t : SymbolTable) (x y : Ty) : Prop where
  left : ∀ l, t.Decides l x → t.Decides l y
  right : ∀ r, t.Decides y r → t.Decides x r

/-- Arguments `bs` of a term may be replaced by `as`: in a term on the left with covariant
occurrences, and in one on the right with contravariant ones. -/
structure Swaps (t : SymbolTable) (ps : List SymbolId) (as bs : List Ty) (x y : Ty) : Prop where
  left : ∀ g, t.ClassTerm ps g → t.Occurs true g → x = g.inst ps bs → t.Decides (g.inst ps as) y
  right : ∀ g, t.ClassTerm ps g → t.Occurs false g → y = g.inst ps bs → t.Decides x (g.inst ps as)

/-- The arguments of a base type, with smaller arguments in them. -/
theorem Pointwise.swap (ht : t.Plain) {gs hs es : List Ty}
    (term : t.ClassTerm ps (.ref (.this pkg) c gs)) (base : t.Base (.ref (.this pkg) c gs) d hs)
    (occurs : t.Occurs true (.ref (.this pkg) d hs))
    (args : t.Pointwise (t.Swaps ps as bs) (t.tparams d) (hs.map (Ty.inst ps bs)) es) :
    t.Pointwise t.Decides (t.tparams d) (hs.map (Ty.inst ps as)) es := by
  have term' := base.classTerm ht term ht.javaLang
  cases occurs with
  | app co contra =>
    refine ⟨by simpa using args.len, fun i p a e hp ha he hvar =>
      ?_, fun i p a e hp ha he hvar => ?_⟩
    · obtain ⟨h, hh, rfl⟩ := by simpa using ha
      exact (args.co i p (h.inst ps bs) e hp (by simp [hh]) he hvar).left
        h (term'.arg (List.mem_of_getElem? hh)) (co i p h hp hh hvar) rfl
    · obtain ⟨h, hh, rfl⟩ := by simpa using ha
      exact (args.contra i p (h.inst ps bs) e hp (by simp [hh]) he hvar).right
        h (term'.arg (List.mem_of_getElem? hh)) (contra i p h hp hh hvar) rfl

section Swap

variable {as bs : List Ty} (arity : as.length = ps.length) (cuts : t.Pointwise t.Cuts ps as bs)
include arity cuts

/-- In a parameter itself the arguments are replaced by a cut. -/
theorem Swaps.of_app {x y : Ty} (h : t.Decides x y) (left : ∀ pkg c gs, t.ClassTerm
    ps (.ref (.this pkg) c gs) → t.Occurs true (.ref (.this pkg) c gs) →
      x = .ref (.this pkg) c (gs.map (Ty.inst ps bs)) →
        t.Decides (.ref (.this pkg) c (gs.map (Ty.inst ps as))) y)
    (right : ∀ pkg c gs, t.ClassTerm ps (.ref (.this pkg) c gs) →
      t.Occurs false (.ref (.this pkg) c gs) → y = .ref (.this pkg) c (gs.map (Ty.inst ps bs)) →
      t.Decides x (.ref (.this pkg) c (gs.map (Ty.inst ps as)))) :
    t.Swaps ps as bs x y := by
  refine ⟨fun g term occurs eq => ?_, fun g term occurs eq => ?_⟩
  · cases term with
    | param mem =>
      obtain ⟨a, ha, hp⟩ := exists_arg mem arity
      obtain ⟨b, hb, -⟩ := exists_arg mem (cuts.len ▸ arity)
      rw [Ty.inst_param hb mem] at eq
      subst eq
      rw [Ty.inst_param ha mem]
      cases occurs with
      | param allowed => exact (cuts.co _ _ _ _ hp ha hb allowed).right _ h
    | app package plain len terms =>
      rw [Ty.inst_app] at eq ⊢
      exact left _ _ _ (.app package plain len terms) occurs eq
  · cases term with
    | param mem =>
      obtain ⟨a, ha, hp⟩ := exists_arg mem arity
      obtain ⟨b, hb, -⟩ := exists_arg mem (cuts.len ▸ arity)
      rw [Ty.inst_param hb mem] at eq
      subst eq
      rw [Ty.inst_param ha mem]
      cases occurs with
      | param allowed => exact (cuts.contra _ _ _ _ hp ha hb allowed).left _ h
    | app package plain len terms =>
      rw [Ty.inst_app] at eq ⊢
      exact right _ _ _ (.app package plain len terms) occurs eq

/-- The induction is on the derivation, whatever the term. -/
theorem Decides.swaps (ht : t.Plain) (hv : t.RespectsVariance)
    {x y : Ty} (h : t.Decides x y) : t.Swaps ps as bs x y := by
  induction h with
  | nothing =>
    refine .of_app arity cuts .nothing ?_ fun _ _ _ _ _ _ => .nothing
    rintro _ _ _ - - ⟨⟩
    exact .nothing
  | null admits =>
    refine .of_app arity cuts (.null admits) ?_ ?_
    · rintro _ _ _ - - ⟨⟩
      exact .null admits
    · rintro _ _ _ - - ⟨⟩
      exact .null admits
  | base base len hco hcontra ihco ihcontra =>
    refine .of_app arity cuts (.base base len hco hcontra) ?_ ?_
    · rintro pkg c gs term occurs rfl
      rw [← Ty.inst_app] at base
      obtain ⟨hs, rfl, base', occurs'⟩ := base.of_inst ht hv term occurs
      have above : t.Base _ _ (hs.map (Ty.inst ps as)) := base'.inst ht term
      rw [Ty.inst_app] at above
      exact .of_args above (.swap ht term base' (occurs' _) ⟨len, ihco, ihcontra⟩)
    · rintro pkg c gs term occurs ⟨⟩
      cases occurs with
      | app oco ocontra =>
      refine .base base (by simpa using len) (fun i p a b hp ha hb hvar => ?_)
        fun i p a b hp ha hb hvar => ?_
      · obtain ⟨h, hh, rfl⟩ := by simpa using hb
        exact (ihco i p a _ hp ha (by simp [hh]) hvar).right h (term.arg (List.mem_of_getElem? hh))
          (oco i p h hp hh hvar) rfl
      · obtain ⟨h, hh, rfl⟩ := by simpa using hb
        exact (ihcontra i p a _ hp ha (by simp [hh]) hvar).left
          h (term.arg (List.mem_of_getElem? hh)) (ocontra i p h hp hh hvar) rfl

end Swap

/-- Instantiation is monotone where the parameters occur covariantly, and antitone where they occur
contravariantly, for a relation that classes pass on from their arguments. -/
theorem Occurs.inst_monotone (pass : ∀ {pkg c as bs}, t.IsPlainClass c → t.Pointwise R (t.tparams c)
      as bs → R (.ref (.this pkg) c as) (.ref (.this pkg) c bs)) (arity : as.length = ps.length)
    (args : t.Pointwise R ps as bs) {g : Ty} (term : t.ClassTerm ps g) (occurs : t.Occurs up g) :
    if up then R (g.inst ps as) (g.inst ps bs) else R (g.inst ps bs) (g.inst ps as) := by
  induction occurs with
  | @param up p allowed =>
    cases term with
    | param mem =>
    obtain ⟨a, ha, hp⟩ := exists_arg mem arity
    obtain ⟨b, hb, -⟩ := exists_arg mem (args.len ▸ arity)
    rw [Ty.inst_param ha mem, Ty.inst_param hb mem]
    cases up with
    | true => exact args.co _ p a b hp ha hb allowed
    | false => exact args.contra _ p a b hp ha hb allowed
  | @app up pkg c gs _ _ ihco ihcontra =>
    simp only [Ty.inst_app]
    have co := fun i p g hp hg hvar => ihco i p g hp hg hvar (term.arg (List.mem_of_getElem? hg))
    have contra := fun i p g hp hg hvar => ihcontra
      i p g hp hg hvar (term.arg (List.mem_of_getElem? hg))
    cases up with
    | true => exact pass term.isPlainClass (.map co contra)
    | false => exact pass term.isPlainClass (.map co contra)

/-- Null conforms to the base types of what it conforms to. -/
theorem AdmitsNull.of_base (ht : t.Plain) {args : List Ty}
    (closed : t.ClassType (.ref (.this pkg) c args)) (h : t.AdmitsNull c)
    (base : t.Base (.ref (.this pkg) c args) d bs) : t.AdmitsNull d := by
  have derives := base.derives ht closed
  have hd := ht.derives_plain closed.isPlainClass derives
  rw [SymM.admitsNull_iff ht closed.isPlainClass] at h
  rw [SymM.admitsNull_iff ht hd]
  refine ⟨?_, fun value => h.2 (derives.trans value)⟩
  rintro rfl
  obtain ⟨_, eq⟩ := base.bottom ht (.inl rfl)
  cases eq
  exact h.1 rfl

/-- The arguments of a base type, instantiated monotonically. -/
theorem Pointwise.inst (ht : t.Plain) {gs hs : List Ty}
    (term : t.ClassTerm ps (.ref (.this pkg) c gs)) (base : t.Base (.ref (.this pkg) c gs) d hs)
    (occurs : t.Occurs true (.ref (.this pkg) d hs)) (arity : as.length = ps.length)
    (args : t.Pointwise t.Decides ps as bs) :
    t.Pointwise t.Decides (t.tparams d) (hs.map (Ty.inst ps as)) (hs.map (Ty.inst ps bs)) := by
  have term' := base.classTerm ht term ht.javaLang
  cases occurs with
  | app co contra =>
    refine .map (fun i p h hp hh hvar => ?_) fun i p h hp hh hvar => ?_
    · exact Occurs.inst_monotone (fun _ args => .of_args .here args)
        arity args (term'.arg (List.mem_of_getElem? hh)) (co i p h hp hh hvar)
    · exact Occurs.inst_monotone (fun _ args => .of_args .here args)
        arity args (term'.arg (List.mem_of_getElem? hh)) (contra i p h hp hh hvar)

section Compose

variable (ht : t.Plain) (hv : t.RespectsVariance) {x l r : Ty} {pkg d : SymbolId} {as bs : List Ty}
  (closed : t.ClassType x) (base : t.Base x d as) (args : t.Pointwise t.Cuts (t.tparams d) as bs)
include ht hv closed base args

/-- A derivation that ends where the arguments at a base type begin. -/
theorem Decides.compose_left (h : t.Decides l x) : t.Decides l (.ref (.this pkg) d bs) := by
  cases h with
  | nothing => exact .nothing
  | null admits => exact .null (admits.of_base ht closed base)
  | @base _ pkg' c as0 cs base0 len co contra =>
    have args0 : t.Pointwise t.Decides (t.tparams c) as0 cs := ⟨len, co, contra⟩
    cases base with
    | here =>
      exact .of_args base0 (args0.comp args (fun h cut => cut.left _ h) fun cut h => cut.right _ h)
    | up plain parent rest =>
      obtain ⟨pkg', e, gs, rfl, -, declared, -⟩ := ht.super_inst closed parent
      obtain ⟨hs, rfl, base', occurs⟩ := rest.of_inst ht hv declared (hv c plain _ parent)
      have next : t.Base (.ref (.this pkg') c as0) d _ := .up plain parent (base'.inst ht declared)
      refine .of_args (base0.trans next) ((Pointwise.inst ht declared
        base' (occurs _) ?_ args0).comp args (fun h cut => cut.left _ h) fun cut h => cut.right _ h)
      exact len.trans closed.arity

/-- A derivation that begins where the arguments at a base type end. -/
theorem Decides.compose_right (closed' : t.ClassType (.ref (.this pkg) d bs))
    (h : t.Decides (.ref (.this pkg) d bs) r) : t.Decides x r := by
  cases h with
  | nothing =>
    obtain ⟨_, rfl⟩ := base.bottom ht (.inl rfl)
    exact .nothing
  | null admits =>
    obtain ⟨_, rfl⟩ := base.bottom ht (.inr rfl)
    exact .null admits
  | @base _ pkg' e cs es base1 len co contra =>
    have args1 : t.Pointwise t.Decides (t.tparams e) cs es := ⟨len, co, contra⟩
    cases base1 with
    | here =>
      exact .of_args base (args.comp args1 (fun cut h => cut.right _ h) fun h cut => cut.left _ h)
    | up plain parent rest =>
      obtain ⟨pkg', c, gs, rfl, -, declared, -⟩ := ht.super_inst closed' parent
      obtain ⟨hs, rfl, base', occurs⟩ := rest.of_inst ht hv declared (hv d plain _ parent)
      have next : t.Base (.ref (.this pkg') d as) e _ := .up plain parent (base'.inst ht declared)
      have arity : as.length = (t.tparams d).length := args.len.trans closed'.arity
      exact .of_args (base.trans next)
        (.swap ht declared base' (occurs _) (args1.imp fun h => h.swaps arity args ht hv))

end Compose

theorem Decides.cuts (ht : t.Plain) (hv : t.RespectsVariance) {x y : Ty} (h : t.Decides x y)
    (closed : t.ClassType x) (closed' : t.ClassType y) : t.Cuts x y := by
  induction h with
  | nothing =>
    refine ⟨fun l h => ?_, fun _ _ => .nothing⟩
    cases h with
    | nothing => exact .nothing
    | null admits => exact absurd rfl ((SymM.admitsNull_iff ht closed.isPlainClass).1 admits).1
    | base base =>
      obtain ⟨_, rfl⟩ := base.bottom ht (.inl rfl)
      exact .nothing
  | null admits =>
    refine ⟨fun l h => ?_, fun r h => ?_⟩
    · cases h with
      | nothing => exact .nothing
      | null _ => exact .null admits
      | base base =>
        obtain ⟨_, rfl⟩ := base.bottom ht (.inr rfl)
        exact .null admits
    · cases h with
      | nothing => exact absurd rfl ((SymM.admitsNull_iff ht closed'.isPlainClass).1 admits).1
      | null admits' => exact .null admits'
      | base base => exact .null (admits.of_base ht closed' base)
  | @base x pkg d as bs base len _ _ ihco ihcontra =>
    obtain ⟨_, _, _, rfl⟩ := closed.shape
    have closed0 := base.classTerm ht closed ht.javaLang
    have args : t.Pointwise t.Cuts (t.tparams d) as bs :=
      ⟨len, fun i p a b hp ha hb hvar => ihco i p a b hp ha
          hb hvar (closed0.arg (List.mem_of_getElem? ha)) (closed'.arg (List.mem_of_getElem? hb)),
        fun i p a b hp ha hb hvar => ihcontra i p a b hp ha
          hb hvar (closed'.arg (List.mem_of_getElem? hb)) (closed0.arg (List.mem_of_getElem? ha))⟩
    exact ⟨fun l h => .compose_left ht hv closed base args h, fun r h =>
      .compose_right ht hv closed base args closed' h⟩

theorem Decides.refl (closed : t.ClassType l) : t.Decides l l := by
  induction closed with
  | param mem => cases mem
  | app _ _ _ _ ih => exact .of_args .here (.refl ih)

theorem Conforms.closed (ht : t.Plain) {r : Ty} (h : t.Conforms l r) :
    t.ClassType l ∧ t.ClassType r := by
  induction h with
  | refl closed => exact ⟨closed, closed⟩
  | trans _ _ ihl ihr => exact ⟨ihl.1, ihr.2⟩
  | nothing closed closed' => exact ⟨closed, closed'⟩
  | null closed closed' => exact ⟨closed, closed'⟩
  | parent closed declared =>
    obtain ⟨_, _, _, _, _, _, closed'⟩ := ht.super_inst closed declared
    exact ⟨closed, closed'⟩
  | args closed closed' => exact ⟨closed, closed'⟩

/-- Every derivation has one without cuts. -/
theorem Conforms.decides (ht : t.Plain) (hv : t.RespectsVariance)
    {r : Ty} (h : t.Conforms l r) : t.Decides l r := by
  induction h with
  | refl closed => exact .refl closed
  | trans left right ihl ihr =>
    exact (ihl.cuts ht hv (left.closed ht).1 (left.closed ht).2).right _ ihr
  | nothing => exact .nothing
  | null _ _ admits => exact .null admits
  | parent closed declared =>
    obtain ⟨_, d, gs, rfl, -, -, above⟩ := ht.super_inst closed declared
    rw [Ty.inst_app] at above ⊢
    exact .of_args (.parent closed.isPlainClass declared) (.refl fun a ha => .refl (above.arg ha))
  | args closed closed' _ _ ihco ihcontra =>
    exact .base .here (closed.arity.trans closed'.arity.symm) ihco ihcontra

theorem Base.conforms (ht : t.Plain) {args : List Ty}
    (closed : t.ClassType (.ref (.this pkg) c args))
    (h : t.Base (.ref (.this pkg) c args) d bs) {pkg' : SymbolId} (package : t.IsPackage pkg') :
    t.Conforms (.ref (.this pkg) c args) (.ref (.this pkg') d bs) := by
  generalize eq : Ty.ref (.this pkg) c args = l at h
  induction h generalizing pkg c args with
  | @here _ c args =>
    cases eq
    have same : t.Pointwise t.Conforms (t.tparams c) args args :=
      .refl fun a ha => .refl (closed.arg ha)
    exact .args closed (Base.here.classTerm ht closed package) same.co same.contra
  | up _ parent _ ih =>
    cases eq
    obtain ⟨_, _, _, rfl, -, -, above⟩ := ht.super_inst closed parent
    refine .trans (.parent closed parent) ?_
    rw [Ty.inst_app] at ih above ⊢
    exact ih above rfl

end SymbolTable

end Conformance

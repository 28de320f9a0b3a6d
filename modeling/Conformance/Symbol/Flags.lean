/-!
Sets of symbol flags, one bit a flag in the order of `Flag`.
-/

namespace Conformance

inductive Flag where
  | package
  | module
  /-- Abstract type member or type parameter. -/
  | deferred
  /-- Existentially bound type. -/
  | existential
  | java
  | covariant
  | contravariant
  | hidden
  /-- Stands for an existentially bound type. -/
  | skolem
  /-- Annotation class that conformance must preserve. -/
  | typeConstraint
  | trait
  /-- Value that may appear in a path. -/
  | stable
  | param
  | implicit
  | synthetic
  | final
deriving DecidableEq, Repr, Inhabited

namespace Flag

def all : List Flag :=
  [.package, .module, .deferred, .existential, .java, .covariant, .contravariant, .hidden,
   .skolem, .typeConstraint, .trait, .stable, .param, .implicit, .synthetic, .final]

/-- Position of the flag's bit. -/
def index : Flag → Nat
  | .package => 0
  | .module => 1
  | .deferred => 2
  | .existential => 3
  | .java => 4
  | .covariant => 5
  | .contravariant => 6
  | .hidden => 7
  | .skolem => 8
  | .typeConstraint => 9
  | .trait => 10
  | .stable => 11
  | .param => 12
  | .implicit => 13
  | .synthetic => 14
  | .final => 15

end Flag

structure Flags where
  bits : Nat
deriving DecidableEq, Repr, Inhabited

namespace Flags

def empty : Flags := ⟨0⟩

def has (fs : Flags) (f : Flag) : Bool := fs.bits.testBit f.index

def union (fs gs : Flags) : Flags := ⟨fs.bits ||| gs.bits⟩

def single (f : Flag) : Flags := ⟨1 <<< f.index⟩

def ofList (fs : List Flag) : Flags := fs.foldl (fun acc f => acc.union (single f)) empty

/-- Flags of the set in bit order. -/
def toList (fs : Flags) : List Flag := Flag.all.filter fs.has

@[simp] theorem has_union (fs gs : Flags) (f : Flag) :
    (fs.union gs).has f = (fs.has f || gs.has f) := by
  simp [union, has]

@[simp] theorem has_empty (f : Flag) : empty.has f = false := by
  simp [empty, has]

end Flags

end Conformance

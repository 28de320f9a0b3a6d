/-!
Constraints of type variables, over any representation `τ` of types.
-/

namespace Conformance

/-- Bounds collected for a variable, and its instantiation once known. -/
structure Constraint (τ : Type) where
  lo : List τ := []
  hi : List τ := []
  inst : Option τ := none
deriving DecidableEq, Repr, Inhabited

namespace Constraint

variable {τ : Type} [DecidableEq τ]

/-- Add a lower bound; `false` when it was there. -/
def addLo (c : Constraint τ) (t : τ) : Bool × Constraint τ :=
  if t ∈ c.lo then (false, c) else (true, { c with lo := c.lo ++ [t] })

/-- Add an upper bound; `false` when it was there. -/
def addHi (c : Constraint τ) (t : τ) : Bool × Constraint τ :=
  if t ∈ c.hi then (false, c) else (true, { c with hi := c.hi ++ [t] })

def setInst (c : Constraint τ) (t : τ) : Constraint τ := { c with inst := some t }

end Constraint

/-- State of a variable. A suspended one compares as its origin and records nothing. -/
structure VarInfo (τ : Type) where
  origin : τ
  /-- Nesting of skolemization at which it was made; deeper skolems must not
  enter its constraint. -/
  level : Nat
  suspended : Bool := false
  constraint : Constraint τ := {}
deriving DecidableEq, Repr, Inhabited

end Conformance

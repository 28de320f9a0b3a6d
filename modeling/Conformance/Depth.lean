/-!
Depth budget of a conformance query: how many widening retries (base types,
upper bounds, paths) may still be nested. An unlimited budget never runs out.
-/

namespace Conformance

inductive Depth where
  | unlimited
  | limited (remaining : Nat)
deriving DecidableEq, Repr, Inhabited

namespace Depth

/-- Finite budgets are capped at the largest signed 32-bit word. -/
def cap : Nat := 2147483647

def ofNat (n : Nat) : Depth := .limited (min n cap)

def isUnlimited : Depth → Bool
  | .unlimited => true
  | .limited _ => false

def isExhausted : Depth → Bool
  | .unlimited => false
  | .limited n => n == 0

def decr : Depth → Depth
  | .unlimited => .unlimited
  | .limited n => .limited (n - 1)

def remaining? : Depth → Option Nat
  | .unlimited => none
  | .limited n => some n

end Depth

end Conformance

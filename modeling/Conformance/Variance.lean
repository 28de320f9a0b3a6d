/-! Variance of a type parameter. -/

namespace Conformance

inductive Variance where
  | invariant
  | covariant
  | contravariant
deriving DecidableEq, Repr, Inhabited

namespace Variance

def flip : Variance → Variance
  | .covariant => .contravariant
  | .contravariant => .covariant
  | .invariant => .invariant

@[simp] theorem flip_flip (v : Variance) : v.flip.flip = v := by cases v <;> rfl

end Variance

end Conformance

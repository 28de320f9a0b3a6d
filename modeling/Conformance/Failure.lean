/-!
Causes for which an operation gives no answer.
-/

namespace Conformance

inductive Failure where
  /-- A renaming met a symbol whose replacement is missing. -/
  | missingReplacement (available position : Nat)
  /-- An annotation checker gave up. -/
  | annotationChecker (message : String)
  /-- Declarations refer to one another more deeply than the given fuel. -/
  | exhausted
deriving DecidableEq, Repr, Inhabited

def Failure.message : Failure → String
  | .missingReplacement available position =>
    "index out of bounds: the len is " ++ toString available ++
      " but the index is " ++ toString position
  | .annotationChecker message => message
  | .exhausted => "declarations are nested too deeply"

end Conformance

/-!
Cut-offs. Every bounded search of the library takes its bound from here.
-/

namespace Conformance.Limits

/-- Nesting level of queries from which pending pairs are tracked. -/
def pendingThreshold : Nat := 50

/-- Nesting of conformance and equivalence queries. -/
def subtypeDepth : Nat := 256

/-- Parent and bound hops followed to a base type. -/
def baseTypeDepth : Nat := 64

/-- Nesting of class linearization. -/
def linearizationDepth : Nat := 256

/-- Base classes inspected for a shared base type. -/
def lubCandidates : Nat := 32

/-- Nesting of least upper bounds taken of type arguments. -/
def lubDepth : Nat := 4

/-- Steps of alias expansion, widening and path following. -/
def aliasSteps : Nat := 128

/-- Nesting shown by the type printer. -/
def printDepth : Nat := 12

/-- Largest word that a limit can be set to. -/
def word : Nat := 4294967295

end Conformance.Limits

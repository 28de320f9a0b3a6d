import Conformance.Print.TypeText
import Conformance.Print.Outline
import Conformance.Numeral
import Conformance.Ty.Pool
import Conformance.Print.Names
import Conformance.Proofs.Bottom
import Conformance.Proofs.Paths.Agreement
import Conformance.Proofs.Limits
import Conformance.Proofs.Suspension
import Conformance.Proofs.Composites
import Conformance.Proofs.Occurrence
import Conformance.Proofs.Classes.Bounds
import Conformance.Proofs.Classes.Transparency
import Conformance.Proofs.Members.Copies
import Conformance.Proofs.Parents
import Conformance.Proofs.Binders.Equivalence
import Conformance.Proofs.BaseTypes.Quantifiers
import Conformance.Proofs.BaseTypes.Composition
import Conformance.Proofs.Symmetry.Equivalence
import Conformance.Proofs.Ownership
import Conformance.Proofs.Events
import Conformance.Proofs.Substitution.Composition
import Conformance.Proofs.Entries
import Conformance.Proofs.Snapshots
import Conformance.Proofs.Substitution.Renaming

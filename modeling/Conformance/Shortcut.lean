/-!
Answers that are cheaper to look up than to derive. `answeredBy known question`
is `question ()` in every proof; evaluation takes `known`, which is equal to it
by the proof that comes along, and leaves the question alone.
-/

namespace Conformance

/-- `question ()`, answered by the value `known`. -/
@[inline] def answeredBy (known : Bool) (question : Unit → Bool) (h : known = question ()) : Bool :=
  withPtrEq known true
    (fun _ => !withPtrEq known false (fun _ => !question ()) (fun e => by simp [← h, e]))
    (fun e => by simp [withPtrEq, ← h, e])

@[simp] theorem answeredBy_eq {known : Bool} {question : Unit → Bool} (h : known = question ()) :
    answeredBy known question h = question () := by
  simp [answeredBy, withPtrEq]

end Conformance

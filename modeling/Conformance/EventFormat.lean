/-! Layouts in which query events can be written. -/

namespace Conformance

inductive EventFormat where
  | text
  | tree
  | json
deriving DecidableEq, Repr, Inhabited

/-- Layout of a given name, whatever the case of its ASCII letters; plain text
for any other name. -/
def EventFormat.ofName (name : String) : EventFormat :=
  match name.toLower with
  | "tree" => .tree
  | "json" => .json
  | _ => .text

end Conformance

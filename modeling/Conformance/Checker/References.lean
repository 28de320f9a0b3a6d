import Conformance.Checker.Basic

/-!
References: constructors by symbol and prefix, arguments by variance.
-/

namespace Conformance

variable (cfg : Config) (q : Queries)

/-- Arguments that conform as the variances of the parameters demand. -/
def subArgs (depth : Depth) : List Ty → List Ty → List SymbolId → CheckM Bool
  | [], [], [] => return true
  | l :: ls, r :: rs, p :: ps => do
    let variance := ((← CheckM.readTable).get p).variance
    if variance != .covariant then
      if !(← q.sub r l depth) then return false
    if variance != .contravariant then
      if !(← q.sub l r depth) then return false
    subArgs depth ls rs ps
  | _, _, _ => return false

/-- As `subArgs`, asked only of lists of one length. -/
def argsConform (depth : Depth) (ls rs : List Ty) (ps : List SymbolId) : CheckM Bool :=
  if ls.length = rs.length ∧ ls.length = ps.length then subArgs q depth ls rs ps else return false

/-- A prefix that may equal a prefix with other symbols: a refined type, an open
variable, or a path from one. -/
def isFlexiblePrefix : Nat → Ty → CheckM Bool
  | 0, _ => throw .exhausted
  | fuel + 1, ty =>
    match ty with
    | .single pre s => do
      if ((← CheckM.readTable).flags s).has .package then return false
      isFlexiblePrefix fuel pre
    | .var v => do
      match ← CheckM.varInfo? v with
      | none => return false
      | some info =>
        match info.constraint.inst with
        | some inst => isFlexiblePrefix fuel inst
        | none => return true
    | .refined .. => return true
    | _ => return false

/-- Prefixes that may be identified although their symbols differ. -/
def unifiable (pre1 pre2 : Ty) : CheckM Bool := do
  if !(← isFlexiblePrefix cfg.fuel pre1) then
    if !(← isFlexiblePrefix cfg.fuel pre2) then return false
  q.same pre1 pre2

/-- One symbol, or two of one name, under equivalent prefixes. -/
def sameEntity (s1 : SymbolId) (pre1 : Ty) (s2 : SymbolId) (pre2 : Ty) : CheckM Bool := do
  let t ← CheckM.readTable
  if s1 == s2 then
    if (t.flags s1).has .package || (t.flags (t.owner s1)).has
      .package || cfg.policy.erasedTypes then
      return true
    q.same pre1 pre2
  else if t.name s1 == t.name s2 then unifiable cfg q pre1 pre2
  else return false

/-- Not two references to one constructor. -/
def differentConstructor : Ty → Ty → CheckM Bool
  | .ref pre1 s1 _, .ref pre2 s2 _ => if s1 != s2 then return true else q.different pre1 pre2
  | _, _ => return true

/-- Distinct prefixes of which the first conforms to the second. -/
def subPrefix (pre1 pre2 : Ty) : CheckM Bool :=
  if pre1 = pre2 ∨ pre1 = .noPrefix ∨ pre2 = .noPrefix then return false
  else q.sub pre1 pre2 .unlimited

/-- Constructors whose arguments may be compared. -/
def constructorConforms (pre1 : Ty) (s1 : SymbolId) (pre2 : Ty) (s2 : SymbolId) (depth : Depth) :
    CheckM Bool := do
  let t ← CheckM.readTable
  let r1 := t.get s1
  let r2 := t.get s2
  if s1 == s2 then
    if cfg.policy.erasedTypes || (t.flags r1.owner).has .package then return true
    q.sub pre1 pre2 depth
  else if r1.name == r2.name && !r1.isModuleClass && !r2.isModuleClass then
    if ← unifiable cfg q pre1 pre2 then return true
    if r2.isAbstractType then subPrefix q pre1 pre2 else return false
  else return false

end Conformance

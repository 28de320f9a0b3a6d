import Conformance.KeySet
import Conformance.Table.Basic

/-!
Components of a type, also through the infos of the symbols that it binds. A
search keeps a stack of the types still to be looked at and looks at each type
once. A sweep beforehand meets the same types part by part and says how many
turns the search can take: each bound symbol has one info, so at most `size + 1`
rounds of following infos meet every symbol that can be met.
-/

namespace Conformance

namespace Ty

/-- Symbols bound at the top of a type. -/
def binders : Ty → List SymbolId
  | .refined _ decls _ => decls
  | .exist qs _ => qs
  | .method ps _ _ => ps
  | .poly ps _ => ps
  | _ => []

end Ty

/-- Types met, each after its components, and the symbols that they bind, in
the order in which they were met. -/
structure Sweep where
  types : KeySet Ty := .empty
  bound : List SymbolId := []
deriving Inhabited

namespace Sweep

/-- Note a type whose components are there. -/
def add (w : Sweep) (ty : Ty) : Sweep where
  types := w.types.insert ty
  bound := ty.binders.foldl (fun bound s => if bound.contains s then bound else bound ++ [s])
    w.bound

mutual
/-- Note a type and its components, infos of bound symbols apart. -/
def visit (w : Sweep) (ty : Ty) : Sweep :=
  if w.types.contains ty then w
  else add (match ty with
    | .single pre _ => w.visit pre
    | .ref pre _ args => (w.visit pre).visitAll args
    | .refined parents _ _ => w.visitAll parents
    | .exist _ body => w.visit body
    | .annotated _ body => w.visit body
    | .boundedWildcard b => w.visit b
    | .bounds lo hi => (w.visit lo).visit hi
    | .method _ r _ => w.visit r
    | .nullary r => w.visit r
    | .poly _ r => w.visit r
    | .notNull b => w.visit b
    | _ => w) ty

def visitAll (w : Sweep) : List Ty → Sweep
  | [] => w
  | ty :: tys => (w.visit ty).visitAll tys
end

end Sweep

namespace SymbolTable

/-- Infos that say something. -/
def infos (t : SymbolTable) (syms : List SymbolId) : List Ty :=
  (syms.map t.info).filter (·.isPresent)

/-- Immediate components, in order; infos stand where their symbols are bound. -/
def children (t : SymbolTable) : Ty → List Ty
  | .single pre _ => [pre]
  | .ref pre _ args => pre :: args
  | .refined parents decls _ => parents ++ t.infos decls
  | .exist qs body => t.infos qs ++ [body]
  | .annotated _ body => [body]
  | .boundedWildcard b => [b]
  | .bounds lo hi => [lo, hi]
  | .method ps r _ => t.infos ps ++ [r]
  | .nullary r => [r]
  | .poly ps r => t.infos ps ++ [r]
  | .notNull b => [b]
  | _ => []

/-- Visit the infos of the symbols bound so far, the first `done` of which are
done, and so on for `n` rounds. -/
def follow (t : SymbolTable) : Nat → Nat → Sweep → Sweep
  | 0, _, w => w
  | n + 1, done, w =>
    match w.bound.drop done with
    | [] => w
    | new => t.follow n w.bound.length (w.visitAll (t.infos new))

/-- `ty` and all its components, however deep. -/
def reachable (t : SymbolTable) (ty : Ty) : List Ty :=
  (t.follow (t.size + 1) 0 (({} : Sweep).visit ty)).types.elems

end SymbolTable

/-- A search under way: the types looked at, and those to be looked at, the next
one first. -/
structure Search where
  visited : KeySet Ty := .empty
  stack : List Ty

namespace Search

variable (t : SymbolTable) (p : Ty → Bool)

/-- One turn of a search for a type with `p`: its answer, or where it goes on. -/
def turn (w : Search) : Except Bool Search :=
  match w.stack with
  | [] => .error false
  | ty :: rest =>
    if w.visited.contains ty then .ok { w with stack := rest }
    else if p ty then .error true
    else .ok { visited := w.visited.insert ty, stack := (t.children ty).reverse ++ rest }

/-- The answer, if there is one within so many turns. -/
def run : Nat → Search → Option Bool
  | 0, _ => none
  | n + 1, w => match w.turn t p with
    | .error answer => some answer
    | .ok w => w.run n

end Search

namespace SymbolTable

/-- Enough turns for any search from `ty`. -/
def turns (t : SymbolTable) (ty : Ty) : Nat :=
  ((t.reachable ty).flatMap t.children).length + 2

/-- Does `p` hold of `ty` or of a component? -/
def existsType (t : SymbolTable) (ty : Ty) (p : Ty → Bool) : Bool :=
  (Search.run t p (t.turns ty) { stack := [ty] }).getD false

/-- `ty` names `s` in a reference or path. -/
def mentionsSymbol (t : SymbolTable) (ty : Ty) (s : SymbolId) : Bool :=
  t.existsType ty fun
    | .ref _ s' _ => s' == s
    | .single _ s' => s' == s
    | .this s' => s' == s
    | _ => false

def mentionsVar (t : SymbolTable) (ty : Ty) (v : VarId) : Bool :=
  t.existsType ty fun
    | .var v' => v' == v
    | _ => false

end SymbolTable

end Conformance

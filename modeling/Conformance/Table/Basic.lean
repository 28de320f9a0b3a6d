import Conformance.Failure
import Conformance.Symbol.Record

/-!
Symbol tables. A symbol's identifier is its position. Reading an unknown
identifier gives the record of the absent symbol, and updating one changes nothing.
-/

namespace Conformance

structure SymbolTable where
  records : Array SymbolRecord
  /-- Linearizations computed since the last change of parents. -/
  linearized : List (SymbolId × List SymbolId) := []
deriving Repr, Inhabited

namespace SymbolTable

def size (t : SymbolTable) : Nat := t.records.size

def contains (t : SymbolTable) (s : SymbolId) : Bool := decide (s.val < t.records.size)

def get (t : SymbolTable) (s : SymbolId) : SymbolRecord :=
  t.records.getD s.val (t.records.getD 0 .absent)

def owner (t : SymbolTable) (s : SymbolId) : SymbolId := (t.get s).owner

def kind (t : SymbolTable) (s : SymbolId) : SymbolKind := (t.get s).kind

def flags (t : SymbolTable) (s : SymbolId) : Flags := (t.get s).flags

def info (t : SymbolTable) (s : SymbolId) : Ty := (t.get s).info

def name (t : SymbolTable) (s : SymbolId) : String := (t.get s).name

def tparams (t : SymbolTable) (s : SymbolId) : List SymbolId := (t.get s).tparams

/-- Identifier of the next symbol to be entered. -/
def nextId (t : SymbolTable) : SymbolId := ⟨t.records.size⟩

/-- Enter `r` under the next identifier. -/
def add (t : SymbolTable) (r : SymbolRecord) : SymbolTable :=
  { t with records := t.records.push { r with id := t.nextId } }

def update (t : SymbolTable) (s : SymbolId) (f : SymbolRecord → SymbolRecord) : SymbolTable :=
  { t with records := t.records.modify s.val f }

def setInfo (t : SymbolTable) (s : SymbolId) (info : Ty) : SymbolTable :=
  t.update s ({ · with info })

def setTParams (t : SymbolTable) (s : SymbolId) (tparams : List SymbolId) : SymbolTable :=
  t.update s ({ · with tparams })

/-- Flags are only ever added. -/
def setFlags (t : SymbolTable) (s : SymbolId) (flags : Flags) : SymbolTable :=
  t.update s fun r => { r with flags := r.flags.union flags }

/-- A change of parents invalidates every linearization. -/
def setParents (t : SymbolTable) (s : SymbolId) (parents : List Ty) : SymbolTable :=
  { t.update s ({ · with parents }) with linearized := [] }

/-- Members are recorded in classes only. -/
def addDecl (t : SymbolTable) (cls member : SymbolId) : SymbolTable :=
  if cls.isPresent && (t.kind cls).isClass then
    t.update cls fun r => { r with decls := r.decls.push member }
  else t

/-- Members named `name` declared in `cls` itself that are visible outside. -/
def declsNamed (t : SymbolTable) (cls : SymbolId) (name : String) : List SymbolId :=
  (t.get cls).decls.toList.filter fun d => (t.get d).name == name && !(t.get d).isHidden

end SymbolTable

/-- Operations that may enter symbols. A failing one keeps what it entered. -/
abbrev SymM := EStateM Failure SymbolTable

end Conformance

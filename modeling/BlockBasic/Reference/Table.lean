import BlockBasic.Diagnostic
/-!
# Table — what a program declares, in the order of first declaration

Procedures and functions share one scope, variables have another, and within a scope a name counts up to the case of its
letters.  A table is the list of its declarations: declaring a key again replaces the declaration in its place.
-/
namespace BlockBasic

/-- Routines and variables do not get into each other's way. -/
inductive Scope where
  | routine | variable_
deriving DecidableEq

inductive DeclarationKind where
  | routine (kind : RoutineKind)
  | variable_
deriving DecidableEq

namespace DeclarationKind

def scope : DeclarationKind → Scope
  | routine _ => .routine
  | variable_ => .variable_

def text : DeclarationKind → Text
  | routine kind => kind.text
  | variable_    => "VARIABLE".toList

end DeclarationKind

/-- A name in its scope; the name is in upper case. -/
structure Key where
  scope : Scope
  name  : Text
deriving DecidableEq

def Key.ofName (scope : Scope) (name : Text) : Key := ⟨scope, name.upper⟩

/-- Where the block of a routine ends: the index and the number of a line. -/
structure BlockEnd where
  index  : Nat
  number : Nat
deriving DecidableEq

/-- A declaration: its name as it is spelled, the line it is made in, the names of its parameters, and the end of its block
once that is known.  The index and the number of the end are the one field `closedAt`, since a declaration is made without
either and a terminator sets both at once: that both are set or both unset is a matter of the type, not of a proof. -/
structure Declaration where
  name       : Text
  kind       : DeclarationKind
  index      : Nat
  number     : Nat
  parameters : List Text := []
  closedAt   : Option BlockEnd := none
deriving DecidableEq

namespace Declaration

def key (d : Declaration) : Key := Key.ofName d.kind.scope d.name

def isClosed (d : Declaration) : Bool := d.closedAt.isSome

end Declaration

/-- **The declarations of a program**, by key and in the order in which the keys were first declared. -/
structure Table where
  entries : List Declaration := []
deriving DecidableEq

namespace Table

def empty : Table := ⟨[]⟩

def size (t : Table) : Nat := t.entries.length

def isEmpty (t : Table) : Bool := t.entries.isEmpty

def get? (t : Table) (k : Key) : Option Declaration := t.entries.find? (fun d => d.key == k)

/-- The list with the first declaration under `d`'s key replaced, or with `d` at its end. -/
def put (d : Declaration) : List Declaration → List Declaration
  | []      => [d]
  | e :: es => if e.key = d.key then d :: es else e :: put d es

def declare (t : Table) (d : Declaration) : Table := ⟨put d t.entries⟩

def putEnd (k : Key) (stop : BlockEnd) : List Declaration → List Declaration
  | []      => []
  | e :: es => if e.key = k then { e with closedAt := some stop } :: es else e :: putEnd k stop es

def close (t : Table) (k : Key) (stop : BlockEnd) : Table := ⟨putEnd k stop t.entries⟩

/-- **What a name refers to**: a routine before a variable. -/
def lookup (t : Table) (name : Text) : Option Declaration :=
  (t.get? (Key.ofName .routine name)).or (t.get? (Key.ofName .variable_ name))

def contains (t : Table) (name : Text) : Bool := (t.lookup name).isSome

def isParameter (t : Table) (name : Text) : Bool := t.entries.any (fun d => d.parameters.any (Text.alike · name))

end Table
end BlockBasic

import BlockBasic.Reference.Table
/-!
# Register — a table with an index of its keys

Declarations in the order of first declaration, and for each key the position of its declaration.  Declaring and closing
go through the index instead of searching the declarations.
-/
namespace BlockBasic

/-- **Declarations under an index**, which has the positions of their keys. -/
structure Register where
  declarations : List Declaration := []
  index        : List (Key × Nat) := []
deriving DecidableEq

namespace Register

def table (r : Register) : Table := ⟨r.declarations⟩

def declare (r : Register) (d : Declaration) : Option Declaration × Register :=
  match r.index.lookup d.key with
  | some i => (r.declarations[i]?, { r with declarations := r.declarations.set i d })
  | none   => (none, ⟨r.declarations ++ [d], (d.key, r.declarations.length) :: r.index⟩)

def get? (r : Register) (k : Key) : Option Declaration := (r.index.lookup k).bind (fun i => r.declarations[i]?)

def closing (stop : BlockEnd) (d : Declaration) : Declaration := { d with closedAt := some stop }

/-- Sets the end of the declaration under a key, and says whether there is one. -/
def close (r : Register) (k : Key) (stop : BlockEnd) : Bool × Register :=
  match r.index.lookup k with
  | some i => (true, { r with declarations := r.declarations.modify i (closing stop) })
  | none   => (false, r)

def lookup (r : Register) (name : Text) : Option Declaration :=
  (r.get? (Key.ofName .routine name)).or (r.get? (Key.ofName .variable_ name))

def size (r : Register) : Nat := r.declarations.length

/-! ## Sequences of operations -/

inductive Operation where
  | declare (d : Declaration)
  | close (k : Key) (stop : BlockEnd)

def apply (r : Register) : Operation → Register
  | .declare d    => (r.declare d).2
  | .close k stop => (r.close k stop).2

def after (operations : List Operation) : Register := operations.foldl apply {}

end Register
end BlockBasic

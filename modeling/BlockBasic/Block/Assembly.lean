import BlockBasic.Block.Node
import BlockBasic.Block.Run
/-!
# Assembly — runs put together into blocks

One pass over the runs keeps the blocks that are open.  A run that opens a block becomes the header of a new innermost
one; a terminator closes the innermost block if it fits, and otherwise stays a stray leaf; every other run is a leaf.
Blocks that are open at the end stay unclosed.  Only the roles of the runs matter here.
-/
namespace BlockBasic

namespace Assembly

/-- A block that is open, and the nodes before it in the block around it. -/
structure OpenBlock where
  form   : BlockForm
  header : Run
  before : List (Node Run)

end Assembly

structure Assembly where
  blocks  : List Assembly.OpenBlock := []
  current : List (Node Run) := []

namespace Assembly

def add (a : Assembly) (n : Node Run) : Assembly := { a with current := a.current ++ [n] }

def step (a : Assembly) (r : Run) : Assembly :=
  match r.role with
  | .plain       => a.add (.leaf r false)
  | .opens form  => ⟨⟨form, r, a.current⟩ :: a.blocks, []⟩
  | .closes form =>
    match a.blocks with
    | b :: bs =>
      if b.form = form then ⟨bs, b.before ++ [.block b.form b.header a.current (some r)]⟩
      else a.add (.leaf r true)
    | []      => a.add (.leaf r true)

def ofRuns (runs : List Run) : Assembly := runs.foldl step {}

def wrap (blocks : List OpenBlock) (current : List (Node Run)) : List (Node Run) :=
  blocks.foldl (fun inner b => b.before ++ [.block b.form b.header inner none]) current

def nodes (a : Assembly) : List (Node Run) := wrap a.blocks a.current

/-! ## Faults -/

/-- Why a terminator closes nothing, where it does not: the innermost block is of another form, or there is none. -/
def fault? (a : Assembly) (r : Run) : Option Fault :=
  match r.role with
  | .closes form =>
    match a.blocks with
    | b :: _ => if b.form = form then none else some (.mismatched b.form b.header.number)
    | []     => some (.unopened form)
  | _            => none

def terminatorDiagnostics (a : Assembly) (r : Run) : List Diagnostic :=
  (a.fault? r).toList.map (fun f => f.located r.number r.column)

def unclosedDiagnostic (b : OpenBlock) : Diagnostic :=
  (Fault.unclosed b.form).located b.header.number b.header.column

end Assembly

def blockTree (runs : List Run) : List (Node Run) := (Assembly.ofRuns runs).nodes

end BlockBasic

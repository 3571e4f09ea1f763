import BlockBasic.Block.Run
import BlockBasic.Reference.Table
/-!
# Scan — the declarations of a program

One pass over the runs collects every procedure, function and variable.  A variable is declared by what first gives it a
value: an assignment, a `LET`, a `FOR`, or a `DIM`.  The table is flat, so a declaration counts for the whole program.

The end of a routine is the end of its block, so the pass keeps the blocks that are open, each with the key of the routine
it belongs to.  A terminator closes the innermost block or nothing: an `END PROCEDURE` inside an open `FOR` leaves the
procedure open.
-/
namespace BlockBasic
namespace Scan

/-! ## What a run offers -/

/-- The first name after the start and after each separator, outside brackets: the rest of each item is passed over.
`depth` counts the brackets, which need not balance; `wanted` says whether an item still lacks its name. -/
def itemNames : (depth : Int) → (wanted : Bool) → List Token → List Token
  | _, _, []              => []
  | depth, wanted, t :: ts =>
    match t.kind with
    | .opener _  => itemNames (depth + 1) wanted ts
    | .closer _  => itemNames (depth - 1) wanted ts
    | .separator => itemNames depth (wanted || depth == 0) ts
    | .name      => if depth == 0 && wanted then t :: itemNames depth false ts else itemNames depth wanted ts
    | _          => itemNames depth wanted ts

/-- The tokens before the bracket that closes the group they are in, any type of bracket counting; all of them when
nothing closes it.  `depth` counts the groups inside. -/
def groupInside : (depth : Nat) → List Token → List Token
  | _, []          => []
  | depth, t :: ts =>
    match t.kind, depth with
    | .opener _, depth     => t :: groupInside (depth + 1) ts
    | .closer _, 0         => []
    | .closer _, depth + 1 => t :: groupInside depth ts
    | _, depth             => t :: groupInside depth ts

/-- What follows the bracket that closes the group the tokens are in; nothing when it is not closed. -/
def afterGroup (tokens : List Token) : List Token := tokens.drop ((groupInside 0 tokens).length + 1)

/-- The parameters of a routine: the first name of each item in the parentheses right after its name. -/
def parameters (tokens : List Token) : List Text :=
  match tokens with
  | t :: ts => if t.kind = .opener .round then (itemNames 0 true (groupInside 0 ts)).map Token.text else []
  | []      => []

/-- Whether an assignment operator comes first. -/
def startsAssigning (tokens : List Token) : Bool :=
  match tokens with
  | t :: _ =>
    match t.kind with
    | .assignment _ => true
    | _             => false
  | []     => false

/-- The name that an assignment gives a value to; it may have a size in square brackets. -/
def target? (tokens : List Token) : Option Token :=
  match tokens with
  | []      => none
  | t :: ts =>
    if t.kind = .name then
      match ts with
      | b :: bs =>
        if b.kind = .opener .square then (if startsAssigning (afterGroup bs) then some t else none)
        else if startsAssigning ts then some t
        else none
      | []      => none
    else none

/-- **The names that a run gives a value to**, and so declares unless they are declared already. -/
def offers (tokens : List Token) : List Token :=
  match tokens with
  | []      => []
  | t :: ts =>
    match t.kind with
    | .word .let_ | .word .for_ => (target? ts).toList
    | .word .dim                => itemNames 0 true ts
    | .name                     => (target? (t :: ts)).toList
    | _                         => []

def routine? (tokens : List Token) : Option RoutineKind :=
  match Run.word? tokens 0 with
  | some .procedure => some .procedure
  | some .function  => some .function
  | _               => none

/-- The name of a routine: the token after the first, when that is a name. -/
def routineName? (tokens : List Token) : Option Token := tokens[1]?.filter (fun t => t.kind == .name)

/-! ## The pass -/

/-- A block that is open, and the key of the routine whose block it is. -/
structure OpenBlock where
  form : BlockForm
  key  : Option Key
deriving DecidableEq

end Scan

/-- The state of the pass: the table so far, what was reported, and the open blocks, the innermost first. -/
structure Scan where
  table       : Table := Table.empty
  diagnostics : List Diagnostic := []
  blocks      : List Scan.OpenBlock := []

namespace Scan

/-- Declares a variable by its first mention; a name that is declared stays as it is. -/
def mention (r : Run) (table : Table) (name : Token) : Table :=
  if table.contains name.text then table else table.declare ⟨name.text, .variable_, r.index, r.number, [], none⟩

def header (r : Run) (kind : RoutineKind) (name : Token) : Declaration :=
  ⟨name.text, .routine kind, r.index, r.number, parameters (r.tokens.drop 2), none⟩

def declare (s : Scan) (r : Run) : Table × List Diagnostic × Option Key :=
  match routine? r.tokens with
  | none      => ((offers r.tokens).foldl (mention r) s.table, s.diagnostics, none)
  | some kind =>
    match routineName? r.tokens with
    | none      =>
      (s.table, s.diagnostics ++ (r.tokens.head?.map (fun t => (Fault.nameless kind).located r.number t.column)).toList,
        none)
    | some name =>
      (s.table.declare (header r kind name),
        s.diagnostics ++ ((s.table.get? (header r kind name).key).map (fun previous =>
          (Fault.duplicate previous.name previous.number).located r.number name.column)).toList,
        some (header r kind name).key)

def finish (table : Table) (r : Run) (key : Option Key) : Table :=
  match key with
  | some k => table.close k ⟨r.index, r.number⟩
  | none   => table

def step (s : Scan) (r : Run) : Scan :=
  match r.role with
  | .closes form =>
    match s.blocks with
    | b :: bs => if b.form = form then { s with table := finish s.table r b.key, blocks := bs } else s
    | []      => s
  | .opens form  => ⟨(s.declare r).1, (s.declare r).2.1, ⟨form, (s.declare r).2.2⟩ :: s.blocks⟩
  | .plain       => ⟨(s.declare r).1, (s.declare r).2.1, s.blocks⟩

def ofRuns (runs : List Run) : Scan := runs.foldl step {}

end Scan

/-- **The declarations of a program**, and the reports on them. -/
def declarations (lines : List CodeLine) : Table × List Diagnostic :=
  ((Scan.ofRuns (programRuns lines)).table, (Scan.ofRuns (programRuns lines)).diagnostics)

end BlockBasic

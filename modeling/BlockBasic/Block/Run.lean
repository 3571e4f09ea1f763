import BlockBasic.CodeLine
/-!
# Run — the tokens of one statement, and its part in the blocks

A program is the sequence of its runs.  A run closes a block, opens one, or does neither, and its first tokens and its
last one tell which: `ENDIF`, `NEXT`, `WEND`, `LOOP`, and `END` before the word of a block close; the words of blocks
open, `IF` only when the run ends in `THEN`.  Whether a terminator fits is for the reader of the sequence to say: only
the innermost open block can be closed.
-/
namespace BlockBasic

/-- The tokens of a statement, with the index and the number of their line. -/
structure Run where
  index  : Nat
  number : Nat
  tokens : List Token
deriving DecidableEq

inductive Role where
  | opens (form : BlockForm)
  | closes (form : BlockForm)
  | plain
deriving DecidableEq

namespace Run

def word? (tokens : List Token) (i : Nat) : Option Word := tokens[i]?.bind Token.word?

def closes? (tokens : List Token) : Option BlockForm :=
  match word? tokens 0 with
  | some .endIf => some .ifThen
  | some .next  => some .forNext
  | some .wend  => some .whileWend
  | some .loop  => some .doLoop
  | some .end_  =>
    match word? tokens 1 with
    | some .if_       => some .ifThen
    | some .procedure => some .procedure
    | some .function  => some .function
    | _               => none
  | _           => none

def endsInThen (tokens : List Token) : Bool := tokens.getLast?.bind Token.word? == some .then_

/-- The form of block that a run opens.  An `IF` that has a statement after its `THEN` opens none. -/
def opens? (tokens : List Token) : Option BlockForm :=
  match word? tokens 0 with
  | some .if_       => if endsInThen tokens then some .ifThen else none
  | some .procedure => some .procedure
  | some .function  => some .function
  | some .for_      => some .forNext
  | some .while_    => some .whileWend
  | some .do_       => some .doLoop
  | _               => none

def role (r : Run) : Role :=
  match closes? r.tokens, opens? r.tokens with
  | some form, _    => .closes form
  | none, some form => .opens form
  | none, none      => .plain

def column (r : Run) : Column :=
  match r.tokens.head?, r.tokens.getLast? with
  | some first, some last => ⟨first.column.start, last.column.stop⟩
  | _, _                  => Column.none

end Run

def runsFrom : Nat → List CodeLine → List Run
  | _, []         => []
  | index, l :: ls => l.runs.map (fun tokens => ⟨index, l.number, tokens⟩) ++ runsFrom (index + 1) ls

/-- **A program as the sequence of its statements' tokens.** -/
def programRuns (lines : List CodeLine) : List Run := runsFrom 0 lines

end BlockBasic

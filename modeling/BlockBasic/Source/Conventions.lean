import BlockBasic.Text.Blank
/-!
# Conventions — comments, `REM` and continued lines

Before a line is read as tokens its comment is cut off and its ends are trimmed.  A comment begins at the comment
character, or at a `:` before the word `REM`, outside strings; a line that is a `REM` altogether has no code.  A line
whose code ends in the continuation character, standing alone after white space, goes on in the next line.
-/
namespace BlockBasic

structure Conventions where
  /-- Begins a comment that runs to the end of the line, outside strings. -/
  comment      : Char := '\x27'
  /-- Ends a line that goes on in the next one. -/
  continuation : Option Char := some '_'
  /-- Whether `REM` begins a comment. -/
  remarks      : Bool := true
deriving DecidableEq

namespace Conventions

/-- The word `REM`, and after it white space or nothing. -/
def isRemark : Text → Bool
  | a :: b :: c :: rest => Text.alike [a, b, c] "REM".toList && rest.head?.all Text.isBlank
  | _                   => false

def startsComment (o : Conventions) (c : Char) (rest : Text) : Bool :=
  c == o.comment || (c == ':' && o.remarks && isRemark rest.trimStart)

/-- The part of a line before its comment, and whether a string is open at the end of that part; `inString` says whether
one is open before it.  A quote is a quote even where it is also the comment character. -/
def cut (o : Conventions) : (inString : Bool) → Text → Text × Bool
  | inString, []      => ([], inString)
  | inString, c :: cs =>
    if c = '"' then (cut o (!inString) cs).map (c :: ·) id
    else if !inString && o.startsComment c cs then ([], false)
    else (cut o inString cs).map (c :: ·) id

/-- **The code of a line**, and whether it leaves a string open. -/
def strip (o : Conventions) (line : Text) : Text × Bool :=
  if o.remarks && isRemark (o.cut false line.chomp).1.trim then ([], false)
  else ((o.cut false line.chomp).1.trim, (o.cut false line.chomp).2)

def code? (o : Conventions) (line : Text) : Option Text :=
  if (o.strip line).1 = [] then none else some (o.strip line).1

/-- Whether code ends in the continuation character, standing alone. -/
def continues (o : Conventions) (code : Text) (inString : Bool) : Bool :=
  match o.continuation with
  | some mark => !inString && code.getLast? == some mark && code.dropLast.getLast?.all Text.isBlank
  | none      => false

/-- **A physical line's share of its logical line**, and whether the logical line goes on. -/
def piece (o : Conventions) (line : Text) : Text × Bool :=
  if o.continues (o.strip line).1 (o.strip line).2 then (Text.trimEnd (o.strip line).1.dropLast, true)
  else ((o.strip line).1, false)

end Conventions
end BlockBasic

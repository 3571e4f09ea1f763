import BlockBasic.Diagnostic
import BlockBasic.Token.Lexer
/-!
# CodeLine — a line with its number and its tokens

A line holds one or more statements.  A `:` ends a statement unless it stands inside brackets: the brackets are counted
from the start of the line, whatever their type, and a closing one too many counts for nothing.  The stretches of tokens
between such colons are the line's `runs`, of which the empty ones are dropped.
-/
namespace BlockBasic

structure CodeLine where
  number : Nat
  source : Text
  tokens : List Token
deriving DecidableEq

namespace CodeLine

def ofSource (number : Nat) (source : Text) : CodeLine := ⟨number, source.chomp, tokenize source⟩

def depthAfter (depth : Nat) (t : Token) : Nat :=
  match t.kind with
  | .opener _ => depth + 1
  | .closer _ => depth - 1
  | _         => depth

def isDivider (depth : Nat) (t : Token) : Bool := t.kind == .colon && depth == 0

/-- The stretches between dividers, the empty ones too; there is always a last one. -/
def stretches : Nat → List Token → List (List Token)
  | _, []          => [[]]
  | depth, t :: ts =>
    if isDivider depth t then [] :: stretches depth ts
    else
      match stretches (depthAfter depth t) ts with
      | []      => [[t]]
      | r :: rs => (t :: r) :: rs

/-- **The tokens of each statement of the line.** -/
def runs (l : CodeLine) : List (List Token) := (stretches 0 l.tokens).filter (fun r => !r.isEmpty)

/-- Why a text is no token, which its first character tells. -/
def tokenFault (text : Text) : Fault :=
  match text with
  | []     => .unexpectedCharacter
  | c :: _ =>
    if c = '"' then .unterminatedString
    else if c.isDigit || c == '.' then .malformedNumber
    else .unexpectedCharacter

def diagnostics (l : CodeLine) : List Diagnostic :=
  (l.tokens.filter Token.isError).map (fun t => (tokenFault t.text).located l.number t.column)

end CodeLine
end BlockBasic

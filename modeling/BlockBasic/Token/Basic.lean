import BlockBasic.Text.Quoted
import BlockBasic.Token.Kind
/-!
# Token — a kind, its text and where it stands

The text of a token is what the line holds at the token's column, except for a string, whose text is its content.
`source` writes a token as a line would hold it, `shown` as a token list shows it.
-/
namespace BlockBasic

structure Token where
  kind   : Kind
  text   : Text
  column : Column
deriving DecidableEq

namespace Token

def synthetic (kind : Kind) : Token := ⟨kind, [], Column.none⟩

/-- The token a whole text is, when it spells an entry of the vocabulary. -/
def ofSpelling? (t : Text) : Option Token := (Kind.ofSpelling? t).map (fun k => ⟨k, t, ⟨0, t.length⟩⟩)

def isError (t : Token) : Bool := t.kind == .error

def word? (t : Token) : Option Word :=
  match t.kind with
  | .word w => some w
  | _       => none

/-- **A token as source text**: a string gets its quotes back. -/
def source (t : Token) : Text :=
  match t.kind with
  | .string => t.text.quote
  | _       => t.text

def shown (t : Token) : Text :=
  t.kind.label ++ '(' :: (t.text.escaped ++ ' ' :: (Text.ofNat t.column.start ++ "..".toList ++
    Text.ofNat t.column.stop ++ [')']))

end Token
end BlockBasic

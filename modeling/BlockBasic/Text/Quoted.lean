import BlockBasic.Text.Unseen
/-!
# Quoted — two ways to write a text between quotes

`quote` is the language's own: a quote inside a string is written twice and nothing else is changed, so any character
may stand in a string.  `escaped` is for a reader's eye: the characters that would not show, the quote and the
backslash are written as escapes.
-/
namespace BlockBasic
namespace Text

def doubleQuotes : Text → Text
  | []      => []
  | c :: cs => if c = '"' then '"' :: '"' :: doubleQuotes cs else c :: doubleQuotes cs

/-- **A string of the language**: its content between quotes, inner quotes doubled. -/
def quote (t : Text) : Text := '"' :: (doubleQuotes t ++ ['"'])

/-- One character of an escaped text.  Six have an escape of their own; the others that leave no mark are given by their
code point. -/
def escapeChar (c : Char) : Text :=
  match c with
  | '"'    => "\\\"".toList
  | '\\'   => "\\\\".toList
  | '\t'   => "\\t".toList
  | '\r'   => "\\r".toList
  | '\n'   => "\\n".toList
  | '\x00' => "\\0".toList
  | c      => if isUnseen c then "\\u\x7b".toList ++ Nat.toDigits 16 c.toNat ++ "\x7d".toList else [c]

def escaped (t : Text) : Text := '"' :: (t.flatMap escapeChar ++ ['"'])

end Text
end BlockBasic

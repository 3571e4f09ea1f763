import BlockBasic.Token.Basic
/-!
# Lexer — a line as tokens

Between tokens stand spaces and tabs only.  What a token is follows from its first character and, at most, the one after
it: a quote begins a string, a digit or a dot before a digit a number, a letter or underscore a word; anything else is
an operator of two characters, an operator of one, a delimiter, or an error of one character.  Each form takes as many
characters as it can.  The lexer keeps nothing from one line to the next.

`scan` walks the line one character at a time; the characters that the last token has taken are passed over, so the
walk ends with the line.
-/
namespace BlockBasic

/-! ## The classes of characters -/

namespace Lexer

def isGap (c : Char) : Bool := c == ' ' || c == '\t'

/-- Digits and dots run together in a number, however many dots there are. -/
def isNumeric (c : Char) : Bool := c.isDigit || c == '.'

def isWordStart (c : Char) : Bool := c.isAlpha || c == '_'

def isWordChar (c : Char) : Bool := isWordStart c || c.isDigit

/-- A word may end in one mark of its type. -/
def isTypeMark (c : Char) : Bool := c == '$' || c == '%' || c == '!'

/-! ## The forms of tokens -/

/-- What is read at one place of a line: a kind, a text, and the number of characters it covers. -/
structure Lexeme where
  kind  : Kind
  text  : Text
  width : Nat
deriving DecidableEq

def Lexeme.plain (kind : Kind) (text : Text) : Lexeme := ⟨kind, text, text.length⟩

/-- The inside of a string, read after its opening quote: the content, and the characters up to and with the closing
quote.  A doubled quote stands for one.  There is none when the line ends first. -/
def stringBody : Text → Option (Text × Nat)
  | []               => none
  | '"' :: '"' :: cs => (stringBody cs).map (fun b => ('"' :: b.1, b.2 + 2))
  | '"' :: _         => some ([], 1)
  | c :: cs          => (stringBody cs).map (fun b => (c :: b.1, b.2 + 1))

/-- A string that opens before `cs`; one that is never closed takes the rest of the line and is an error. -/
def stringLexeme (cs : Text) : Lexeme :=
  match stringBody cs with
  | some (content, width) => ⟨.string, content, width + 1⟩
  | none                  => .plain .error ('"' :: cs)

def numberKind (run : Text) : Kind :=
  match run.count '.' with
  | 0 => .integer
  | 1 => .float
  | _ => .error

def numberLexeme (cs : Text) : Lexeme :=
  .plain (numberKind (cs.takeWhile isNumeric)) (cs.takeWhile isNumeric)

/-- The longest run of letters, digits and underscores, and one mark of type after it. -/
def wordText (cs : Text) : Text :=
  cs.takeWhile isWordChar ++ ((cs.dropWhile isWordChar).take 1).filter isTypeMark

def wordLexeme (cs : Text) : Lexeme := .plain ((Kind.ofSpelling? (wordText cs)).getD .name) (wordText cs)

def operatorKind? (t : Text) : Option Kind := (Kind.ofSpelling? t).filter (·.operator?.isSome)

def markLexeme (c : Char) : Lexeme :=
  .plain (((operatorKind? [c]).or (Kind.ofDelimiter? c)).getD .error) [c]

/-- An operator of two characters goes before one of a single character. -/
def symbolLexeme (c : Char) (cs : Text) : Lexeme :=
  match cs with
  | []     => markLexeme c
  | d :: _ =>
    match operatorKind? [c, d] with
    | some k => .plain k [c, d]
    | none   => markLexeme c

def lexeme (c : Char) (cs : Text) : Lexeme :=
  if c = '"' then stringLexeme cs
  else if c.isDigit || (c == '.' && cs.head?.any Char.isDigit) then numberLexeme (c :: cs)
  else if isWordStart c then wordLexeme (c :: cs)
  else symbolLexeme c cs

/-! ## The walk -/

/-- The tokens of a text whose first character stands at position `i`; its first `taken` characters belong to the
token before. -/
def scan : (i taken : Nat) → Text → List Token
  | _, _, []              => []
  | i, taken + 1, _ :: cs => scan (i + 1) taken cs
  | i, 0, c :: cs         =>
    if isGap c then scan (i + 1) 0 cs
    else
      ⟨(lexeme c cs).kind, (lexeme c cs).text, ⟨i, i + (lexeme c cs).width⟩⟩
        :: scan (i + 1) ((lexeme c cs).width - 1) cs

end Lexer

/-- **The tokens of a line**, whose breaks at the end are no part of it. -/
def tokenize (line : Text) : List Token := Lexer.scan 0 0 line.chomp

end BlockBasic

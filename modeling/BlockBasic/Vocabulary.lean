import BlockBasic.Text.Basic
/-!
# Vocabulary — the reserved words, type names, functions and operators

The language reserves thirty-six words, six type names, sixteen functions and twenty-nine operators, four of which are
spelled with letters.  Each entry has its spelling in upper case, which is also how a listing writes it, and a label for
a reader.  No two entries share a spelling, so a text names at most one of them.
-/
namespace BlockBasic

def capitalised : Text → Text
  | []      => []
  | c :: cs => c :: cs.map Char.toLower

/-! ## Words -/

/-- The reserved words: those that begin a statement and those that stand inside one. -/
inductive Word where
  | access | append | as_ | binary | call | close | dim | do_ | else_ | elseIf | end_ | endIf | exit | for_ | function
  | gosub | goto | if_ | input | let_ | loop | next | open_ | output | print | procedure | random | read | return_
  | step | then_ | to_ | until_ | wend | while_ | write
deriving DecidableEq

namespace Word

def all : List Word :=
  [access, append, as_, binary, call, close, dim, do_, else_, elseIf, end_, endIf, exit, for_, function, gosub, goto,
    if_, input, let_, loop, next, open_, output, print, procedure, random, read, return_, step, then_, to_, until_, wend,
    while_, write]

def spelling : Word → Text
  | access    => "ACCESS".toList
  | append    => "APPEND".toList
  | as_       => "AS".toList
  | binary    => "BINARY".toList
  | call      => "CALL".toList
  | close     => "CLOSE".toList
  | dim       => "DIM".toList
  | do_       => "DO".toList
  | else_     => "ELSE".toList
  | elseIf    => "ELSEIF".toList
  | end_      => "END".toList
  | endIf     => "ENDIF".toList
  | exit      => "EXIT".toList
  | for_      => "FOR".toList
  | function  => "FUNCTION".toList
  | gosub     => "GOSUB".toList
  | goto      => "GOTO".toList
  | if_       => "IF".toList
  | input     => "INPUT".toList
  | let_      => "LET".toList
  | loop      => "LOOP".toList
  | next      => "NEXT".toList
  | open_     => "OPEN".toList
  | output    => "OUTPUT".toList
  | print     => "PRINT".toList
  | procedure => "PROCEDURE".toList
  | random    => "RANDOM".toList
  | read      => "READ".toList
  | return_   => "RETURN".toList
  | step      => "STEP".toList
  | then_     => "THEN".toList
  | to_       => "TO".toList
  | until_    => "UNTIL".toList
  | wend      => "WEND".toList
  | while_    => "WHILE".toList
  | write     => "WRITE".toList

/-- The spelling capitalised; the two compound words keep the capital of their second part. -/
def label : Word → Text
  | elseIf => "ElseIf".toList
  | endIf  => "EndIf".toList
  | w      => capitalised w.spelling

theorem mem_all (w : Word) : w ∈ all := by cases w <;> decide

end Word

/-! ## Type names -/

inductive DataType where
  | boolean | double | integer | long | single | string
deriving DecidableEq

namespace DataType

def all : List DataType := [boolean, double, integer, long, single, string]

def spelling : DataType → Text
  | boolean => "BOOLEAN".toList
  | double  => "DOUBLE".toList
  | integer => "INTEGER".toList
  | long    => "LONG".toList
  | single  => "SINGLE".toList
  | string  => "STRING".toList

def label (d : DataType) : Text := capitalised d.spelling

theorem mem_all (d : DataType) : d ∈ all := by cases d <;> decide

end DataType

/-! ## Functions -/

/-- The built-in functions; those that give a string end in `$`. -/
inductive Function where
  | abs | asc | chr | cos | eof | int | left | len | mid | right | rnd | sin | sqr | str | tan | val
deriving DecidableEq

namespace Function

def all : List Function := [abs, asc, chr, cos, eof, int, left, len, mid, right, rnd, sin, sqr, str, tan, val]

def spelling : Function → Text
  | abs   => "ABS".toList
  | asc   => "ASC".toList
  | chr   => "CHR$".toList
  | cos   => "COS".toList
  | eof   => "EOF".toList
  | int   => "INT".toList
  | left  => "LEFT$".toList
  | len   => "LEN".toList
  | mid   => "MID$".toList
  | right => "RIGHT$".toList
  | rnd   => "RND".toList
  | sin   => "SIN".toList
  | sqr   => "SQR".toList
  | str   => "STR$".toList
  | tan   => "TAN".toList
  | val   => "VAL".toList

/-- The spelling capitalised, without its `$`. -/
def label (f : Function) : Text := capitalised (f.spelling.filter (· != '$'))

theorem mem_all (f : Function) : f ∈ all := by cases f <;> decide

end Function

/-! ## Operators -/

/-- The operators, by their meaning. `=` assigns and `==` compares. -/
inductive Operator where
  | caret | multiply | divide | divideInt | modulus | plus | minus
  | assign | plusAssign | minusAssign | multiplyAssign | divideAssign
  | equal | notEqual | less | lessEqual | greater | greaterEqual
  | not_ | and_ | or_ | xor_
  | bitAnd | bitOr | bitNot | shiftLeft | shiftRight
  | increment | decrement
deriving DecidableEq

namespace Operator

def all : List Operator :=
  [caret, multiply, divide, divideInt, modulus, plus, minus, assign, plusAssign, minusAssign, multiplyAssign,
    divideAssign, equal, notEqual, less, lessEqual, greater, greaterEqual, not_, and_, or_, xor_, bitAnd, bitOr, bitNot,
    shiftLeft, shiftRight, increment, decrement]

def spelling : Operator → Text
  | caret          => "^".toList
  | multiply       => "*".toList
  | divide         => "/".toList
  | divideInt      => "\\".toList
  | modulus        => "MOD".toList
  | plus           => "+".toList
  | minus          => "-".toList
  | assign         => "=".toList
  | plusAssign     => "+=".toList
  | minusAssign    => "-=".toList
  | multiplyAssign => "*=".toList
  | divideAssign   => "/=".toList
  | equal          => "==".toList
  | notEqual       => "<>".toList
  | less           => "<".toList
  | lessEqual      => "<=".toList
  | greater        => ">".toList
  | greaterEqual   => ">=".toList
  | not_           => "NOT".toList
  | and_           => "AND".toList
  | or_            => "OR".toList
  | xor_           => "XOR".toList
  | bitAnd         => "&".toList
  | bitOr          => "|".toList
  | bitNot         => "~".toList
  | shiftLeft      => "<<".toList
  | shiftRight     => ">>".toList
  | increment      => "++".toList
  | decrement      => "--".toList

def label : Operator → Text
  | caret          => "Caret".toList
  | multiply       => "Multiply".toList
  | divide         => "Divide".toList
  | divideInt      => "DivideInt".toList
  | modulus        => "Modulus".toList
  | plus           => "Plus".toList
  | minus          => "Minus".toList
  | assign         => "Assign".toList
  | plusAssign     => "PlusAssign".toList
  | minusAssign    => "MinusAssign".toList
  | multiplyAssign => "MultiplyAssign".toList
  | divideAssign   => "DivideAssign".toList
  | equal          => "Equal".toList
  | notEqual       => "NotEqual".toList
  | less           => "Less".toList
  | lessEqual      => "LessEqual".toList
  | greater        => "Greater".toList
  | greaterEqual   => "GreaterEqual".toList
  | not_           => "Not".toList
  | and_           => "And".toList
  | or_            => "Or".toList
  | xor_           => "Xor".toList
  | bitAnd         => "BitAnd".toList
  | bitOr          => "BitOr".toList
  | bitNot         => "BitNot".toList
  | shiftLeft      => "ShiftLeft".toList
  | shiftRight     => "ShiftRight".toList
  | increment      => "Increment".toList
  | decrement      => "Decrement".toList

def isWord (o : Operator) : Bool := o.spelling.all Char.isAlpha

theorem mem_all (o : Operator) : o ∈ all := by cases o <;> decide

end Operator
end BlockBasic

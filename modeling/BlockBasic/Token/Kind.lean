import BlockBasic.Vocabulary
/-!
# Kind — what a token is

A kind is the class of a token together with the entry of the vocabulary it matched, if its class has entries.  A text
is looked up in the vocabulary up to the case of its letters (`ofSpelling?`), a single character among the delimiters
(`ofDelimiter?`).
-/
namespace BlockBasic

/-- The two pairs of brackets: round ones enclose arguments, square ones sizes. -/
inductive Bracket where
  | round | square
deriving DecidableEq

namespace Bracket

def opening : Bracket → Char
  | round  => '('
  | square => '['

def closing : Bracket → Char
  | round  => ')'
  | square => ']'

end Bracket

inductive Kind where
  | unknown
  | error
  | word (w : Word)
  | dataType (d : DataType)
  | function (f : Function)
  | name
  | integer
  | float
  | string
  | arithmetic (o : Operator)
  | assignment (o : Operator)
  | comparison (o : Operator)
  | logical (o : Operator)
  | bitwise (o : Operator)
  | increment
  | decrement
  | opener (b : Bracket)
  | closer (b : Bracket)
  | colon
  | separator
  | quotation
  | hash
deriving DecidableEq

namespace Kind

def ofOperator (o : Operator) : Kind :=
  match o with
  | .caret | .multiply | .divide | .divideInt | .modulus | .plus | .minus          => .arithmetic o
  | .assign | .plusAssign | .minusAssign | .multiplyAssign | .divideAssign         => .assignment o
  | .equal | .notEqual | .less | .lessEqual | .greater | .greaterEqual             => .comparison o
  | .not_ | .and_ | .or_ | .xor_                                                   => .logical o
  | .bitAnd | .bitOr | .bitNot | .shiftLeft | .shiftRight                          => .bitwise o
  | .increment                                                                     => .increment
  | .decrement                                                                     => .decrement

def vocabulary : List (Text × Kind) :=
  Word.all.map (fun w => (w.spelling, .word w)) ++ DataType.all.map (fun d => (d.spelling, .dataType d)) ++
    Function.all.map (fun f => (f.spelling, .function f)) ++ Operator.all.map (fun o => (o.spelling, ofOperator o))

/-- **The entry of the vocabulary a text spells**, the case of its letters aside. -/
def ofSpelling? (t : Text) : Option Kind := vocabulary.lookup t.upper

def ofDelimiter? (c : Char) : Option Kind :=
  match c with
  | '('       => some (.opener .round)
  | ')'       => some (.closer .round)
  | '['       => some (.opener .square)
  | ']'       => some (.closer .square)
  | ':'       => some .colon
  | ',' | ';' => some .separator
  | '"'       => some .quotation
  | '#'       => some .hash
  | _         => none

/-- Words, type names and functions are keywords; operators spelled with letters are not. -/
def isKeyword : Kind → Bool
  | .word _ | .dataType _ | .function _ => true
  | _                                   => false

def operator? : Kind → Option Operator
  | .arithmetic o | .assignment o | .comparison o | .logical o | .bitwise o => some o
  | .increment                                                              => some .increment
  | .decrement                                                              => some .decrement
  | _                                                                       => none

def entry (cls : String) (label : Text) : Text := cls.toList ++ '(' :: (label ++ [')'])

def label : Kind → Text
  | .unknown        => "Unknown".toList
  | .error          => "Error".toList
  | .word w         => entry "ReservedWord" w.label
  | .dataType d     => entry "DataTypeName" d.label
  | .function f     => entry "ReservedFunction" f.label
  | .name           => "UserDefinedItem".toList
  | .integer        => "IntegerLiteral".toList
  | .float          => "FloatingPointLiteral".toList
  | .string         => "StringLiteral".toList
  | .arithmetic o   => entry "ArithmeticOperator" o.label
  | .assignment o   => entry "AssignmentOperator" o.label
  | .comparison o   => entry "ComparisonOperator" o.label
  | .logical o      => entry "LogicalOperator" o.label
  | .bitwise o      => entry "BitwiseOperator" o.label
  | .increment      => "IncrementOperator".toList
  | .decrement      => "DecrementOperator".toList
  | .opener .round  => "BlockStartDelimiter".toList
  | .closer .round  => "BlockEndDelimiter".toList
  | .opener .square => "SizingStartDelimiter".toList
  | .closer .square => "SizingEndDelimiter".toList
  | .colon          => "ExpressionEndDelimiter".toList
  | .separator      => "SeparatorDelimiter".toList
  | .quotation      => "StringDelimiter".toList
  | .hash           => "HandleDelimiter".toList

end Kind
end BlockBasic

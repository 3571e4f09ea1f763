import BlockBasic.Block.Form
import BlockBasic.Token.Kind
/-!
# Diagnostic — what is reported, with its number, its place and its message

A diagnostic has one of eleven codes.  Only the codes of reading are fatal: everything else is mended on the spot and
reported beside a tree that can still be used.  The causes are `Fault`s, and all wording is decided here: a cause knows
its code and its message, and `Fault.diagnostic` puts it at a place.  A user knows the code by what the report begins with:
no text of a code begins another (`Code.text_prefix_iff`), so reports that read the same have the same code
(`Diagnostic.code_eq_of_report_eq`).
-/
namespace BlockBasic

/-! ## Codes -/

inductive FailureClass where
  | reading | tokenization | structure_ | duplication
deriving DecidableEq

def FailureClass.label : FailureClass → Text
  | reading      => "IoFailure".toList
  | tokenization => "TokenizationError".toList
  | structure_   => "StructuralParseError".toList
  | duplication  => "DuplicateDeclaration".toList

inductive Code where
  | ioFailure | interrupted | tokenizationError | unclosedBlock | blockEndWithoutStart | mismatchedBlockEnd
  | unbalancedDelimiter | missingIdentifier | badFileNumber | nestingTooDeep | duplicateDeclaration
deriving DecidableEq

namespace Code

def all : List Code :=
  [ioFailure, interrupted, tokenizationError, unclosedBlock, blockEndWithoutStart, mismatchedBlockEnd,
    unbalancedDelimiter, missingIdentifier, badFileNumber, nestingTooDeep, duplicateDeclaration]

def number : Code → Nat
  | ioFailure            => 57
  | interrupted          => 70
  | tokenizationError    => 2
  | unclosedBlock        => 26
  | blockEndWithoutStart => 1
  | mismatchedBlockEnd   => 30
  | unbalancedDelimiter  => 22
  | missingIdentifier    => 18
  | badFileNumber        => 52
  | nestingTooDeep       => 7
  | duplicateDeclaration => 10

def text : Code → Text
  | ioFailure            => "DISK I/O ERROR".toList
  | interrupted          => "INTERRUPTED".toList
  | tokenizationError    => "SYNTAX ERROR".toList
  | unclosedBlock        => "UNCLOSED BLOCK".toList
  | blockEndWithoutStart => "BLOCK END WITHOUT START".toList
  | mismatchedBlockEnd   => "MISMATCHED BLOCK END".toList
  | unbalancedDelimiter  => "UNBALANCED DELIMITER".toList
  | missingIdentifier    => "MISSING IDENTIFIER".toList
  | badFileNumber        => "BAD FILE NUMBER".toList
  | nestingTooDeep       => "NESTING TOO DEEP".toList
  | duplicateDeclaration => "DUPLICATE DEFINITION".toList

def label : Code → Text
  | ioFailure            => "IoFailure".toList
  | interrupted          => "Interrupted".toList
  | tokenizationError    => "TokenizationError".toList
  | unclosedBlock        => "UnclosedBlock".toList
  | blockEndWithoutStart => "BlockEndWithoutStart".toList
  | mismatchedBlockEnd   => "MismatchedBlockEnd".toList
  | unbalancedDelimiter  => "UnbalancedDelimiter".toList
  | missingIdentifier    => "MissingIdentifier".toList
  | badFileNumber        => "BadFileNumber".toList
  | nestingTooDeep       => "NestingTooDeep".toList
  | duplicateDeclaration => "DuplicateDeclaration".toList

def failureClass : Code → FailureClass
  | ioFailure | interrupted => .reading
  | tokenizationError       => .tokenization
  | duplicateDeclaration    => .duplication
  | _                       => .structure_

theorem mem_all (c : Code) : c ∈ all := by cases c <;> decide

/-- What holds of the codes that are listed holds of every code, so it can be decided. -/
instance decidableForall {p : Code → Prop} [DecidablePred p] : Decidable (∀ c, p c) :=
  decidable_of_iff (∀ c ∈ all, p c) ⟨fun h c => h c (mem_all c), fun h c _ => h c⟩

theorem number_eq_iff : ∀ c d : Code, c.number = d.number ↔ c = d := by decide

/-- **No text of a code begins the text of another**, so what stands first in a report is the text of one code only. -/
theorem text_prefix_iff : ∀ c d : Code, c.text <+: d.text ↔ c = d := by decide

end Code

/-! ## Diagnostics -/

/-- A report: its code, the line and the column it is about, and a message.  A column of `0..0` is no column and an empty
message no message. -/
structure Diagnostic where
  code    : Code
  line?   : Option Nat := none
  column  : Column := Column.none
  message : Text := []
deriving DecidableEq

namespace Diagnostic

/-- **Only a failure of reading is fatal.** -/
def isFatal (d : Diagnostic) : Bool := d.code.failureClass == .reading

def place (d : Diagnostic) : Text :=
  (match d.line? with
    | some n => ' ' :: Text.ofNat n
    | none   => []) ++
  (if d.column = Column.none then []
    else " (".toList ++ Text.ofNat d.column.start ++ "..".toList ++ Text.ofNat d.column.stop ++ ")".toList)

/-- **The text of a report**: the code's text, the place if there is one, the message if there is one. -/
def report (d : Diagnostic) : Text :=
  d.code.text ++ (if d.line? = none ∧ d.column = Column.none then [] else " IN".toList ++ d.place) ++
    (if d.message = [] then [] else "; ".toList ++ d.message)

/-- **A report tells its code**, whatever its place and message are. -/
theorem code_eq_of_report_eq {d e : Diagnostic} (h : d.report = e.report) : d.code = e.code := by
  have opens (f : Diagnostic) : f.code.text <+: f.report := by simp only [report, List.append_assoc, List.prefix_append]
  have mine := opens d
  rw [h] at mine
  rcases List.prefix_or_prefix_of_prefix mine (opens e) with begins | begins
  · exact (Code.text_prefix_iff d.code e.code).1 begins
  · exact ((Code.text_prefix_iff e.code d.code).1 begins).symm

def shown (d : Diagnostic) : Text := "Error \x7b ".toList ++ d.report ++ " \x7d".toList

end Diagnostic

/-! ## Causes -/

inductive RoutineKind where
  | procedure | function
deriving DecidableEq

def RoutineKind.text : RoutineKind → Text
  | procedure => "PROCEDURE".toList
  | function  => "FUNCTION".toList

/-- **Why something is reported.** -/
inductive Fault where
  /-- A read failed, or the input cannot be opened. -/
  | unreadable (reason : Text)
  | interrupted
  | unterminatedString
  | malformedNumber
  | unexpectedCharacter
  /-- The source ends inside a block. -/
  | unclosed (form : BlockForm)
  /-- A terminator stands outside every block. -/
  | unopened (form : BlockForm)
  /-- A terminator does not fit the innermost block, which is open since `line`. -/
  | mismatched (form : BlockForm) (line : Nat)
  | strayCloser (text : Text)
  | missingCloser (bracket : Bracket)
  /-- A group is nested in more groups than are built. -/
  | tooDeep (limit : Nat)
  | nameless (kind : RoutineKind)
  /-- A `#` without a number of a file. -/
  | badHandle
  /-- A routine is declared again; `name` and `line` are those of the declaration it replaces. -/
  | duplicate (name : Text) (line : Nat)
deriving DecidableEq

namespace Fault

def code : Fault → Code
  | unreadable _                                                => .ioFailure
  | interrupted                                                 => .interrupted
  | unterminatedString | malformedNumber | unexpectedCharacter  => .tokenizationError
  | unclosed _                                                  => .unclosedBlock
  | unopened _                                                  => .blockEndWithoutStart
  | mismatched _ _                                              => .mismatchedBlockEnd
  | strayCloser _ | missingCloser _                             => .unbalancedDelimiter
  | tooDeep _                                                   => .nestingTooDeep
  | nameless _                                                  => .missingIdentifier
  | badHandle                                                   => .badFileNumber
  | duplicate _ _                                               => .duplicateDeclaration

def message : Fault → Text
  | unreadable reason    => reason
  | interrupted          => []
  | unterminatedString   => "UNTERMINATED STRING".toList
  | malformedNumber      => "MALFORMED NUMBER".toList
  | unexpectedCharacter  => "UNEXPECTED CHARACTER".toList
  | unclosed form        => form.word.spelling ++ " WITHOUT ".toList ++ form.terminator
  | unopened form        => form.terminator ++ " WITHOUT ".toList ++ form.word.spelling
  | mismatched form line =>
    "EXPECTED ".toList ++ form.terminator ++ " FOR ".toList ++ form.word.spelling ++ " IN ".toList ++ Text.ofNat line
  | strayCloser text     => "UNEXPECTED ".toList ++ text
  | missingCloser b      => "MISSING ".toList ++ [b.closing]
  | tooDeep limit        => "MORE THAN ".toList ++ Text.ofNat limit ++ " LEVELS".toList
  | nameless kind        => kind.text
  | badHandle            => "EXPECTED FILE NUMBER".toList
  | duplicate name line  => name ++ " FIRST DECLARED IN ".toList ++ Text.ofNat line

def diagnostic (f : Fault) : Diagnostic := ⟨f.code, none, Column.none, f.message⟩

def inLine (f : Fault) (line : Nat) : Diagnostic := ⟨f.code, some line, Column.none, f.message⟩

def located (f : Fault) (line : Nat) (column : Column) : Diagnostic := ⟨f.code, some line, column, f.message⟩

end Fault
end BlockBasic

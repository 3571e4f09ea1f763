/-!
# Text — the characters of a program as a list

Every piece of source, every name and every message is a list of characters: columns count characters, so a column is
a pair of positions in such a list, and the laws of the library are laws of lists.  Names and words of the language
match up to the case of ASCII letters (`alike`); the other characters have no case here.
-/
namespace BlockBasic

abbrev Text := List Char

namespace Text

/-- ASCII letters in upper case, every other character as it stands. -/
def upper (t : Text) : Text := t.map Char.toUpper

/-- **Equal up to the case of ASCII letters.** -/
def alike (s t : Text) : Bool := upper s == upper t

def ofNat (n : Nat) : Text := Nat.toDigits 10 n

/-- The number a run of digits denotes, read on from `n`. -/
def digitsValue (n : Nat) (t : Text) : Nat := t.foldl (fun v c => 10 * v + (c.toNat - '0'.toNat)) n

/-- The number a non-empty run of ASCII digits denotes; leading zeros do not matter. -/
def decimal? (t : Text) : Option Nat :=
  if t ≠ [] ∧ t.all Char.isDigit then some (digitsValue 0 t) else none

def dropTail (p : Char → Bool) (t : Text) : Text := (t.reverse.dropWhile p).reverse

/-- Whether the code point of a character is in one of the closed ranges. -/
def inRanges (ranges : List (Nat × Nat)) (c : Char) : Bool :=
  ranges.any (fun r => decide (r.1 ≤ c.toNat) && decide (c.toNat ≤ r.2))

def isBreak (c : Char) : Bool := c == '\r' || c == '\n'

def chomp (t : Text) : Text := dropTail isBreak t

def padLeft (width : Nat) (t : Text) : Text := List.replicate (width - t.length) ' ' ++ t

end Text

/-- **A stretch of a line**: the characters from position `start` up to, and without, position `stop`. -/
structure Column where
  start : Nat
  stop  : Nat
deriving DecidableEq

def Column.none : Column := ⟨0, 0⟩

end BlockBasic

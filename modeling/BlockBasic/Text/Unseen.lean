import BlockBasic.Text.Blank
import BlockBasic.Text.Extending
import BlockBasic.Text.Unassigned
/-!
# Unseen — the characters that leave no mark of their own

A reader cannot tell such characters from each other or from nothing: controls, format characters, blanks, private and
unassigned code points, the fillers of Hangul, and the marks that extend the character before them.  The space is the one
blank that a reader takes for what it is.
-/
namespace BlockBasic
namespace Text

/-- The control characters, of general category `Cc`: C0, delete and C1. -/
def controlRanges : List (Nat × Nat) := [(0x0, 0x1f), (0x7f, 0x9f)]

/-- The format characters, of general category `Cf`: soft hyphen, zero-width space, direction marks and the like. -/
def formatRanges : List (Nat × Nat) :=
  [(0xad, 0xad), (0x600, 0x605), (0x61c, 0x61c), (0x6dd, 0x6dd), (0x70f, 0x70f), (0x890, 0x891), (0x8e2, 0x8e2),
    (0x180e, 0x180e), (0x200b, 0x200f), (0x202a, 0x202e), (0x2060, 0x2064), (0x2066, 0x206f), (0xfeff, 0xfeff),
    (0xfff9, 0xfffb), (0x110bd, 0x110bd), (0x110cd, 0x110cd), (0x13430, 0x1343f), (0x1bca0, 0x1bca3),
    (0x1d173, 0x1d17a), (0xe0001, 0xe0001), (0xe0020, 0xe007f)]

/-- The code points for private use, of general category `Co`. -/
def privateRanges : List (Nat × Nat) := [(0xe000, 0xf8ff), (0xf0000, 0xffffd), (0x100000, 0x10fffd)]

/-- The letters that are drawn as nothing, of the property `Default_Ignorable_Code_Point`: they fill a place of a Hangul
syllable. -/
def fillerRanges : List (Nat × Nat) := [(0x115f, 0x1160), (0x3164, 0x3164), (0xffa0, 0xffa0)]

/-- **A character that leaves no mark of its own**, the space apart. -/
def isUnseen (c : Char) : Bool :=
  c != ' ' && (inRanges controlRanges c || isBlank c || inRanges formatRanges c || inRanges privateRanges c ||
    inRanges fillerRanges c || isUnassigned c || isExtending c)

end Text
end BlockBasic

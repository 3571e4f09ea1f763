import BlockBasic.Text.Basic
/-!
# Blank — white space, and text trimmed of it

A line of source is trimmed of all characters with the Unicode property `White_Space`: the six of ASCII (tab to
carriage return, and the space) and nineteen others.  The lexer has a narrower idea of a gap, so a blank that is neither
a space nor a tab matters only at the ends of a line, before a continuation marker and around `REM`.
-/
namespace BlockBasic
namespace Text

/-- The closed ranges of code points with the property `White_Space`, in increasing order. -/
def blankRanges : List (Nat × Nat) :=
  [(0x9, 0xd), (0x20, 0x20), (0x85, 0x85), (0xa0, 0xa0), (0x1680, 0x1680), (0x2000, 0x200a), (0x2028, 0x2029),
    (0x202f, 0x202f), (0x205f, 0x205f), (0x3000, 0x3000)]

def isBlank (c : Char) : Bool := inRanges blankRanges c

def trimStart (t : Text) : Text := t.dropWhile isBlank
def trimEnd (t : Text) : Text := dropTail isBlank t
def trim (t : Text) : Text := trimEnd (trimStart t)

end Text
end BlockBasic

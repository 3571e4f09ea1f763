import BlockBasic.Program
/-!
# Listing — a program as canonical source text

Each statement has a line of its own, indented by the number of blocks around it; a terminator stands level with the
header it closes.  Words are in upper case, names and numbers as they were spelled, and one space stands between
expressions, except that a separator is tight to what precedes it, and so are a group and a step (`++` or `--`) after a
name or a function.
-/
namespace BlockBasic

inductive Indent where
  | spaces (n : Nat)
  | tab
deriving DecidableEq

def Indent.text (i : Indent) (depth : Nat) : Text :=
  match i with
  | .spaces n => List.replicate (n * depth) ' '
  | .tab      => List.replicate depth '\t'

namespace Atom

def text : Atom → Text
  | .keyword k                    => k.spelling
  | .handle n                     => '#' :: Text.ofNat n
  | .mode m none                  => "FOR ".toList ++ m.text
  | .mode m (some a)              => "FOR ".toList ++ m.text ++ " ACCESS ".toList ++ a.text
  | .fileName name                => name.quote
  | .literal (.string t) _        => t.quote
  | .literal (.integer _) spelled => spelled
  | .literal (.float _) spelled   => spelled
  | .operator o                   => o.spelling
  | .reference name _             => name
  | .separator c                  => [c]
  | .malformed t                  => t

end Atom

namespace Expression

def applies : Expression → Bool
  | .atom _ (.reference _ _)          => true
  | .atom _ (.keyword (.function _))  => true
  | _                                 => false

def spaced (previous e : Expression) : Bool :=
  match e with
  | .atom _ (.separator _)         => false
  | .group _ _ _ _                 => !previous.applies
  | .atom _ (.operator .increment) => !previous.applies
  | .atom _ (.operator .decrement) => !previous.applies
  | _                              => true

def gap (previous : Option Expression) (e : Expression) : Text :=
  match previous with
  | some p => if spaced p e then [' '] else []
  | none   => []

mutual

def text : Expression → Text
  | .atom _ a                 => a.text
  | .group _ b arguments closed =>
    b.opening :: (argumentsText arguments ++ (if closed then [b.closing] else []))

def sequenceText (previous : Option Expression) : List Expression → Text
  | []      => []
  | e :: es => gap previous e ++ text e ++ sequenceText (some e) es

def argumentsText : List (List Expression) → Text
  | []      => []
  | a :: as => sequenceText none a ++ laterArgumentsText as

def laterArgumentsText : List (List Expression) → Text
  | []      => []
  | a :: as => ", ".toList ++ sequenceText none a ++ laterArgumentsText as

end

end Expression

namespace Statement

def operandsText (s : Statement) : Text := Expression.sequenceText none s.expressions

def text (s : Statement) : Text :=
  match s.keyword with
  | none        => s.operandsText
  | some (_, k) => if s.operandsText = [] then k.spelling else k.spelling ++ ' ' :: s.operandsText

end Statement

def listingLine (i : Indent) (entry : Nat × Statement) : Text := i.text entry.1 ++ entry.2.text

def listingLines (i : Indent) (p : Program) : List Text := (Node.entriesOf 0 p).map (listingLine i)

/-- **The listing of a program**: each statement on a line of its own. -/
def listing (i : Indent) (p : Program) : Text := (listingLines i p).flatMap (fun line => line ++ ['\n'])

end BlockBasic

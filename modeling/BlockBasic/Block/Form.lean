import BlockBasic.Vocabulary
/-!
# Form — the six blocks of the language

A block is opened by a word and closed by the terminator of that word.  Listings and diagnostics name both, and a tree
sorts the six forms into four kinds: the three loops are one.
-/
namespace BlockBasic

inductive BlockForm where
  | ifThen | procedure | function | forNext | whileWend | doLoop
deriving DecidableEq

namespace BlockForm

def word : BlockForm → Word
  | ifThen    => .if_
  | procedure => .procedure
  | function  => .function
  | forNext   => .for_
  | whileWend => .while_
  | doLoop    => .do_

def terminator : BlockForm → Text
  | ifThen    => "ENDIF".toList
  | procedure => "END PROCEDURE".toList
  | function  => "END FUNCTION".toList
  | forNext   => "NEXT".toList
  | whileWend => "WEND".toList
  | doLoop    => "LOOP".toList

def kindLabel : BlockForm → Text
  | ifThen                         => "If".toList
  | procedure                      => "Procedure".toList
  | function                       => "Function".toList
  | forNext | whileWend | doLoop   => "Loop".toList

end BlockForm
end BlockBasic

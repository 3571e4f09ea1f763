import BlockBasic.Diagnostic
import BlockBasic.Expression.Phrase
/-!
# Nest — the brackets of a statement

The brackets of a statement are paired by a walk that keeps the groups still open.  A closing bracket ends the innermost
group if it is of that group's type, and otherwise stays where it is, astray; a group that nothing closes reaches to the
end of the statement.  Groups nested deeper than a limit are not looked into, and so any closing bracket ends them.
-/
namespace BlockBasic

/-- A phrase, or a group with what stands in it and the bracket that closes it. -/
inductive Nest where
  | leaf (p : Phrase)
  | group (bracket : Bracket) (opening : Token) (body : List Nest) (closing : Option Token)

/-- How deep groups may be nested; with no limit, any depth is built. -/
abbrev Limit := Option Nat

def Limit.exceeded (limit : Limit) (depth : Nat) : Bool := limit.any (fun n => decide (n ≤ depth))

namespace Nest

/-! ## Pairing -/

/-- A group that is open, and what stands before it in the group around it. -/
structure Frame where
  bracket : Bracket
  opening : Token
  before  : List Nest

/-- The open groups, the innermost first, and what stands in the innermost so far. -/
structure Pairing where
  frames  : List Frame := []
  current : List Nest := []

namespace Pairing

def add (s : Pairing) (n : Nest) : Pairing := { s with current := s.current ++ [n] }

/-- Whether a closing bracket of type `b` ends the innermost of the open groups, which are `f` and those around it. -/
def fits (limit : Limit) (b : Bracket) (f : Frame) (around : List Frame) : Bool :=
  f.bracket == b || limit.exceeded around.length

def step (limit : Limit) (s : Pairing) (p : Phrase) : Pairing :=
  match p.first.kind with
  | .opener b => ⟨⟨b, p.first, s.current⟩ :: s.frames, []⟩
  | .closer b =>
    match s.frames with
    | f :: fs =>
      if fits limit b f fs then ⟨fs, f.before ++ [.group f.bracket f.opening s.current (some p.first)]⟩
      else s.add (.leaf p)
    | []      => s.add (.leaf p)
  | _         => s.add (.leaf p)

def finish (frames : List Frame) (current : List Nest) : List Nest :=
  frames.foldl (fun inner f => f.before ++ [.group f.bracket f.opening inner none]) current

end Pairing

def ofPhrases (limit : Limit) (ps : List Phrase) : List Nest :=
  let s := ps.foldl (Pairing.step limit) {}
  Pairing.finish s.frames s.current

/-! ## Columns and tokens -/

mutual

def tokens : Nest → List Token
  | .leaf p                          => p.tokens
  | .group _ opening body closing    => opening :: (tokensOf body ++ closing.toList)

def tokensOf : List Nest → List Token
  | []      => []
  | n :: ns => tokens n ++ tokensOf ns

end

def groupColumn (opening : Token) (body : List Nest) (closing : Option Token) : Column :=
  ⟨opening.column.start, ((opening :: (tokensOf body ++ closing.toList)).getLastD opening).column.stop⟩

/-- The text of a group that is not looked into: its tokens, with a space after each that is not a bracket. -/
def rawText (bracket : Bracket) (body : List Nest) (closing : Option Token) : Text :=
  bracket.opening :: (tokensOf body ++ closing.toList).flatMap (fun t =>
    match t.kind with
    | .opener _ | .closer _ => t.source
    | _                     => t.source ++ [' '])

/-! ## Faults -/

def phraseFaults (p : Phrase) : List (Column × Fault) :=
  match p with
  | .token t =>
    match t.kind with
    | .closer _ => [(t.column, .strayCloser t.text)]
    | .hash     => [(t.column, .badHandle)]
    | _         => []
  | _        => []

def closingFaults (bracket : Bracket) (opening : Token) (closing : Option Token) : List (Column × Fault) :=
  if closing.isNone then [(opening.column, .missingCloser bracket)] else []

mutual

/-- **What is wrong inside `depth` groups**, in the order in which a reader meets it; a missing bracket is missed at the
end. -/
def faults (limit : Limit) (depth : Nat) : Nest → List (Column × Fault)
  | .leaf p                             => phraseFaults p
  | .group bracket opening body closing =>
    if limit.exceeded depth then
      (opening.column, .tooDeep (limit.getD 0)) :: closingFaults bracket opening closing
    else faultsOf limit (depth + 1) body ++ closingFaults bracket opening closing

def faultsOf (limit : Limit) (depth : Nat) : List Nest → List (Column × Fault)
  | []      => []
  | n :: ns => faults limit depth n ++ faultsOf limit depth ns

end

end Nest
end BlockBasic

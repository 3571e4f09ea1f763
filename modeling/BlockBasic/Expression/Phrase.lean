import BlockBasic.Expression.Basic
import BlockBasic.Token.Basic
/-!
# Phrase — tokens that make one expression together

Most tokens stand alone.  A `#` goes with the number of a file after it, and in an `OPEN` statement a `FOR` goes with the
mode after it and an `ACCESS` with the words of access after it.  Where the word or number that is needed does not follow,
the token stands alone after all.
-/
namespace BlockBasic

inductive Phrase where
  | token (t : Token)
  | handle (hash number : Token) (n : Nat)
  | mode (for_ word : Token) (m : FileMode)
  | access (access word : Token) (more : Option Token) (a : FileAccess)
deriving DecidableEq

namespace Phrase

def tokens : Phrase → List Token
  | .token t             => [t]
  | .handle t u _        => [t, u]
  | .mode t u _          => [t, u]
  | .access t u more _   => t :: u :: more.toList

def first : Phrase → Token
  | .token t | .handle t _ _ | .mode t _ _ | .access t _ _ _ => t

def last : Phrase → Token
  | .token t                                => t
  | .handle _ t _ | .mode _ t _             => t
  | .access _ t none _ | .access _ _ (some t) _ => t

def column (p : Phrase) : Column := ⟨p.first.column.start, p.last.column.stop⟩

def maxHandle : Nat := Nat.pow 2 32 - 1

def handle? (t : Token) : Option Nat :=
  if t.kind = .integer then t.text.decimal?.filter (fun n => decide (n ≤ maxHandle)) else none

def ofHash (t : Token) (rest : List Token) : Phrase :=
  match rest with
  | u :: _ =>
    match handle? u with
    | some n => .handle t u n
    | none   => .token t
  | []     => .token t

def ofFor (t : Token) (rest : List Token) : Phrase :=
  match rest with
  | u :: _ =>
    match u.word?.bind FileMode.ofWord? with
    | some m => .mode t u m
    | none   => .token t
  | []     => .token t

def ofAccess (t : Token) (rest : List Token) : Phrase :=
  match rest with
  | []      => .token t
  | u :: us =>
    match u.word? with
    | some .write => .access t u none .write
    | some .read  =>
      match us with
      | v :: _ => if v.word? = some .write then .access t u (some v) .readWrite else .access t u none .read
      | []     => .access t u none .read
    | _           => .token t

def starting (inOpen : Bool) (t : Token) (rest : List Token) : Phrase :=
  match t.kind with
  | .hash         => ofHash t rest
  | .word .for_   => if inOpen then ofFor t rest else .token t
  | .word .access => if inOpen then ofAccess t rest else .token t
  | _             => .token t

/-- The phrases of tokens whose first `taken` ones belong to the phrase before. -/
def scan (inOpen : Bool) : (taken : Nat) → List Token → List Phrase
  | _, []              => []
  | taken + 1, _ :: ts => scan inOpen taken ts
  | 0, t :: ts         => starting inOpen t ts :: scan inOpen ((starting inOpen t ts).tokens.length - 1) ts

end Phrase

/-- **Tokens as phrases**; `inOpen` says whether they are those of an `OPEN` statement. -/
def phrases (inOpen : Bool) (tokens : List Token) : List Phrase := Phrase.scan inOpen 0 tokens

end BlockBasic

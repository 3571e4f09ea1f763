import BlockBasic.Expression.Double
import BlockBasic.Reference.Table
/-!
# Expression — what a statement is made of

A statement is a sequence of expressions, and the only expression with parts is a group in brackets: an argument list or
a size, each argument again a sequence of expressions.  What an expression is, apart from groups, is an `Atom`; an atom
and its column make an expression.
-/
namespace BlockBasic

/-! ## Atoms -/

inductive Keyword where
  | word (w : Word)
  | dataType (d : DataType)
  | function (f : Function)
deriving DecidableEq

namespace Keyword

def ofKind? : Kind → Option Keyword
  | .word w     => some (.word w)
  | .dataType d => some (.dataType d)
  | .function f => some (.function f)
  | _           => none

def spelling : Keyword → Text
  | .word w     => w.spelling
  | .dataType d => d.spelling
  | .function f => f.spelling

end Keyword

inductive FileMode where
  | input | output | append | binary | random
deriving DecidableEq

namespace FileMode

def ofWord? : Word → Option FileMode
  | .input  => some input
  | .output => some output
  | .append => some append
  | .binary => some binary
  | .random => some random
  | _       => none

def text : FileMode → Text
  | input  => "INPUT".toList
  | output => "OUTPUT".toList
  | append => "APPEND".toList
  | binary => "BINARY".toList
  | random => "RANDOM".toList

end FileMode

inductive FileAccess where
  | read | write | readWrite
deriving DecidableEq

def FileAccess.text : FileAccess → Text
  | read      => "READ".toList
  | write     => "WRITE".toList
  | readWrite => "READ WRITE".toList

inductive Literal where
  | integer (n : Nat)
  | float (x : Double)
  | string (t : Text)
deriving DecidableEq

namespace Literal

def maxInteger : Nat := Nat.pow 2 63 - 1

/-- Digits are an integer if that is in range, and a double otherwise. -/
def ofDigits? (t : Text) : Option Literal :=
  t.decimal?.map (fun n => if n ≤ maxInteger then .integer n else .float (Double.ofRatio n 1))

end Literal

/-- **The expressions without parts.**  A literal keeps its spelling, and a reference the key of what it refers to, if
that is declared; what cannot be read is kept as text. -/
inductive Atom where
  | keyword (k : Keyword)
  | handle (n : Nat)
  | mode (m : FileMode) (access : Option FileAccess)
  | fileName (name : Text)
  | literal (value : Literal) (spelling : Text)
  | operator (o : Operator)
  | reference (name : Text) (key : Option Key)
  | separator (c : Char)
  | malformed (text : Text)
deriving DecidableEq

/-! ## Expressions -/

/-- **An expression**: an atom or a group, with its column. -/
inductive Expression where
  | atom (column : Column) (a : Atom)
  | group (column : Column) (bracket : Bracket) (arguments : List (List Expression)) (closed : Bool)

namespace Expression

def column : Expression → Column
  | .atom c _      => c
  | .group c _ _ _ => c

def isSeparator : Expression → Bool
  | .atom _ (.separator _) => true
  | _                      => false

/-! ### Equality is decidable -/

mutual

def decEq : (x y : Expression) → Decidable (x = y)
  | .atom c a, .atom d b =>
    if h : c = d ∧ a = b then .isTrue (by rw [h.1, h.2])
    else .isFalse (fun e => h ⟨(Expression.atom.inj e).1, (Expression.atom.inj e).2⟩)
  | .group c b xs p, .group d b' ys q =>
    match decEqArguments xs ys with
    | .isTrue hx  =>
      if h : c = d ∧ b = b' ∧ p = q then .isTrue (by rw [h.1, h.2.1, h.2.2, hx])
      else .isFalse (fun e => h ⟨(Expression.group.inj e).1, (Expression.group.inj e).2.1, (Expression.group.inj e).2.2.2⟩)
    | .isFalse hx => .isFalse (fun e => hx (Expression.group.inj e).2.2.1)
  | .atom _ _, .group _ _ _ _ => .isFalse nofun
  | .group _ _ _ _, .atom _ _ => .isFalse nofun

def decEqList : (xs ys : List Expression) → Decidable (xs = ys)
  | [], []           => .isTrue rfl
  | [], _ :: _       => .isFalse nofun
  | _ :: _, []       => .isFalse nofun
  | x :: xs, y :: ys =>
    match decEq x y, decEqList xs ys with
    | .isTrue h, .isTrue hs => .isTrue (by rw [h, hs])
    | .isFalse h, _         => .isFalse (fun e => h (List.cons.inj e).1)
    | _, .isFalse hs        => .isFalse (fun e => hs (List.cons.inj e).2)

def decEqArguments : (xs ys : List (List Expression)) → Decidable (xs = ys)
  | [], []           => .isTrue rfl
  | [], _ :: _       => .isFalse nofun
  | _ :: _, []       => .isFalse nofun
  | x :: xs, y :: ys =>
    match decEqList x y, decEqArguments xs ys with
    | .isTrue h, .isTrue hs => .isTrue (by rw [h, hs])
    | .isFalse h, _         => .isFalse (fun e => h (List.cons.inj e).1)
    | _, .isFalse hs        => .isFalse (fun e => hs (List.cons.inj e).2)

end

instance : DecidableEq Expression := decEq

end Expression
end BlockBasic

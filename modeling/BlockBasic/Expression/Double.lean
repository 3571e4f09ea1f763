import BlockBasic.Text.Basic
/-!
# Double — the binary number nearest to a decimal

A literal with a dot, and an integer beyond the range of integers, is a double: the binary number with 53 bits of
precision nearest to it, a half going to the even neighbour, and infinity for what is beyond the largest one.  The value
of a literal is a ratio `n / d` of natural numbers.  It is scaled by a power of two to a quotient of 53 bits, or fewer
at the bottom of the range, which is then rounded; all of this is exact.
-/
namespace BlockBasic

/-- A double by its sixty-four bits: sign, eleven bits of exponent, fifty-two of fraction. -/
structure Double where
  bits : UInt64
deriving DecidableEq

namespace Double

/-- A quotient rounded to the nearest natural number, a half to the even one. -/
def roundHalfEven (n d : Nat) : Nat :=
  if 2 * (n % d) < d then n / d
  else if d < 2 * (n % d) then n / d + 1
  else n / d + n / d % 2

/-- Numerator and denominator of `n / d · 2 ^ (-e)`. -/
def scaled (n d : Nat) (e : Int) : Nat × Nat := (n * Nat.pow 2 (-e).toNat, d * Nat.pow 2 e.toNat)

/-- The exponent of the last bit of the smallest doubles. -/
def leastExponent : Int := -1074

/-- The exponent of the last bit of the doubles around `n / d`, for `n` and `d` above zero: the quotient has 53 bits at
that scale. -/
def exponent (n d : Nat) : Int :=
  let guess : Int := (n.log2 : Int) - d.log2 - 53
  let ratio := scaled n d guess
  max (if Nat.pow 2 53 ≤ ratio.1 / ratio.2 then guess + 1 else guess) leastExponent

/-- The bits of infinity. -/
def infinityBits : Nat := 0x7ff0000000000000

/-- **The double nearest to `n / d`.**  Exponent and quotient add up to the bits, the leading bit of the quotient counting
into the exponent, so that a quotient rounded up to the next power of two needs no care. -/
def ofRatio (n d : Nat) : Double :=
  if n = 0 then ⟨0⟩
  else
    let e := exponent n d
    let ratio := scaled n d e
    ⟨(min ((e - leastExponent).toNat * Nat.pow 2 52 + roundHalfEven ratio.1 ratio.2) infinityBits).toUInt64⟩

def ofDecimal? (t : Text) : Option Double :=
  let whole := t.takeWhile (· != '.')
  let fraction := (t.dropWhile (· != '.')).drop 1
  (Text.decimal? (whole ++ fraction)).map (fun n => ofRatio n (Nat.pow 10 fraction.length))

end Double
end BlockBasic

/-
Decimal numbers and the double nearest to one.

A `Decimal` is a whole number times a power of ten, the exact meaning of a written
number.  `Decimal.bits` gives the bit pattern of the double nearest to it, computed in
whole numbers only:

* `roundHalfEven` divides and rounds to the nearest whole number, a half going to the
  even neighbour;
* `quotientBits` scales a quotient to 53 binary digits, or to as many as a subnormal
  number has, rounds it once and reads the result as a bit pattern;
* too large a number becomes infinity, too small a one becomes zero.

Patterns of non-negative doubles are ordered like the doubles themselves, so a carry out
of the 53 digits needs no case of its own.
-/

namespace LoxLang

/-- The number `digits * 10 ^ exponent`. -/
structure Decimal where
  digits : Nat
  exponent : Int
deriving DecidableEq, Repr

/-- The bit pattern of positive infinity; the patterns below it are the finite
non-negative doubles, in order. -/
def infinityBits : Nat := 0x7ff0000000000000

/-- The weight of the first binary digit of a double that is not subnormal, which its bit
pattern leaves out; also the distance in patterns from a double to its double. -/
def hiddenBit : Nat := 0x10000000000000

/-- The weight of the sign in a bit pattern. -/
def signBit : Nat := 0x8000000000000000

/-- The quotient rounded to the nearest whole number, a half going to the even one. -/
def roundHalfEven (num den : Nat) : Nat :=
  let q := num / den
  let twice := 2 * (num % den)
  if twice < den then q
  else if den < twice then q + 1
  else q + q % 2

/-- The exponent `q` of the last binary digit kept of `num / den`: at least `-1074`, the
last digit of the subnormal numbers, and else such that `num / den / 2 ^ q` has 53 binary
digits before its point. -/
def lastBinaryPlace (num den : Nat) : Int :=
  let e : Int := (num.log2 : Int) - den.log2 - 52
  let isShort := num * Nat.pow 2 (-e).toNat < hiddenBit * (den * Nat.pow 2 e.toNat)
  max (-1074) (if isShort then e - 1 else e)

/-- The bit pattern of the double nearest to the positive quotient `num / den`. -/
def quotientBits (num den : Nat) : Nat :=
  let q := lastBinaryPlace num den
  let m := roundHalfEven (num * Nat.pow 2 (-q).toNat) (den * Nat.pow 2 q.toNat)
  min infinityBits ((q + 1074).toNat * hiddenBit + m)

namespace Decimal

/-- The bit pattern of the double nearest to a decimal number.  The two comparisons with
400 keep the powers of ten small: beyond them the number is surely infinite or zero. -/
def bits (d : Decimal) : Nat :=
  if d.digits = 0 then 0
  else if 400 < d.exponent then infinityBits
  else if d.exponent < -(d.digits.log2 + 400 : Int) then 0
  else quotientBits (d.digits * Nat.pow 10 d.exponent.toNat) (Nat.pow 10 (-d.exponent).toNat)

/-- The double nearest to a decimal number. -/
def toFloat (d : Decimal) : Float :=
  Float.ofBits (UInt64.ofNat d.bits)

/-- The number written with the digits `whole`, a point, and the digits `fraction`. -/
def ofDigits (whole fraction : List Char) : Decimal :=
  ⟨Nat.ofDigitChars 10 (whole ++ fraction) 0, -(fraction.length : Int)⟩

end Decimal

end LoxLang

/-
How a double is written.

Two notations share the digits of `Decimal.shortest`:

* `positionalText` never uses an exponent and writes a whole number without a point; this
  is what a program prints;
* `generalText` uses an exponent for very large and very small numbers and otherwise
  always has a point; this is what a JSON text holds.

Both write the sign of a negative zero.
-/
import LoxLang.Decimal.Shortest

namespace LoxLang

/-- The digits of a decimal number, written around a point and without an exponent. -/
def Decimal.positional (d : Decimal) : List Char :=
  let ds := d.digitChars
  if 0 ≤ d.exponent then ds ++ List.replicate d.exponent.toNat '0'
  else
    let after := (-d.exponent).toNat
    if after < ds.length then
      ds.take (ds.length - after) ++ '.' :: ds.drop (ds.length - after)
    else '0' :: '.' :: (List.replicate (after - ds.length) '0' ++ ds)

/-- The exponent of the first digit, as in `d.ddd * 10 ^ e`. -/
def Decimal.order (d : Decimal) : Int :=
  d.exponent + d.digitChars.length - 1

/-- One digit before the point, the others after it, and an exponent with a sign and at
least two digits. -/
def Decimal.withExponent (d : Decimal) : List Char :=
  let mantissa := match d.digitChars with
    | c :: c' :: cs => c :: '.' :: c' :: cs
    | cs => cs
  let size := Nat.toDigits 10 d.order.natAbs
  let padded := if size.length < 2 then '0' :: size else size
  mantissa ++ 'e' :: (if d.order < 0 then '-' else '+') :: padded

/-- The bit pattern of the absolute value. -/
def magnitude (x : Float) : Nat := x.toBits.toNat % signBit

/-- Whether the sign bit is set. -/
def isNegative (x : Float) : Bool := signBit ≤ x.toBits.toNat

/-- Writes a double that is a number with `finite` for its digits and `infinite` for
infinity, after its sign. -/
def signed (x : Float) (infinite : String) (finite : Decimal → List Char) : String :=
  let size := if magnitude x = infinityBits then infinite
    else String.ofList (finite (Decimal.shortest (magnitude x)))
  if isNegative x then "-" ++ size else size

/-- The text a program prints for a number. -/
def positionalText (x : Float) : String :=
  if infinityBits < magnitude x then "NaN" else signed x "inf" Decimal.positional

/-- Exponents are written from `10 ^ 16` on and below `10 ^ -4`; a number without an
exponent always has a point. -/
def Decimal.general (d : Decimal) : List Char :=
  if d.order < -4 ∨ 16 ≤ d.order then d.withExponent
  else if 0 ≤ d.exponent then d.positional ++ ['.', '0']
  else d.positional

/-- The text of a number with an exponent where it is long without one, given the names
of the double that is no number and of infinity. -/
def generalText (notANumber infinite : String) (x : Float) : String :=
  if infinityBits < magnitude x then notANumber else signed x infinite Decimal.general

end LoxLang

/-
The fewest decimal digits that identify a double.

`Decimal.exact` is the value of a finite double, which always has a finite decimal
expansion.  `Decimal.shortest` cuts that expansion after one digit, after two, and so on
up to seventeen, and takes the first cut one of whose two neighbours is read back as the
same double; of two such neighbours it takes the nearer, and the even one of two equally
near.  The result is read back by construction; should no cut do, it is the exact
expansion.
-/
import LoxLang.Decimal.Nearest

namespace LoxLang.Decimal

/-- The value of the finite non-negative double with the given bit pattern. -/
def exact (b : Nat) : Decimal :=
  let field := b / hiddenBit
  let fraction := b % hiddenBit
  let m := if field = 0 then fraction else hiddenBit + fraction
  let q : Int := (max field 1 : Nat) - 1075
  if 0 ≤ q then ⟨m * Nat.pow 2 q.toNat, 0⟩ else ⟨m * Nat.pow 5 (-q).toNat, q⟩

/-- The digits of the whole number before the power of ten. -/
def digitChars (d : Decimal) : List Char :=
  Nat.toDigits 10 d.digits

/-- The two multiples of a power of ten next to `d` when the last `cut` digits are left
out, the nearer one first. -/
def neighbours (d : Decimal) (cut : Nat) : List Decimal :=
  let unit := Nat.pow 10 cut
  let below : Decimal := ⟨d.digits / unit, d.exponent + cut⟩
  let above : Decimal := ⟨d.digits / unit + 1, d.exponent + cut⟩
  if roundHalfEven d.digits unit = below.digits then [below, above] else [above, below]

/-- The same number without zeros at the end of its digits. -/
def trim (d : Decimal) : Decimal :=
  let zeros := (d.digitChars.reverse.takeWhile (· == '0')).length
  ⟨d.digits / Nat.pow 10 zeros, d.exponent + zeros⟩

/-- The decimal number with the fewest digits among those whose nearest double is the
finite non-negative one with the given bit pattern. -/
def shortest (b : Nat) : Decimal :=
  if b = 0 then ⟨0, 0⟩
  else
    let e := exact b
    let size := e.digitChars.length
    let cuts := (List.range 17).map fun n => size - (n + 1)
    ((cuts.findSome? fun cut => (e.neighbours cut).find? (·.bits == b)).getD e).trim

end LoxLang.Decimal

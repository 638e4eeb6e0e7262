/-
Classes of characters as runs of code points.

A table of pairs names the first and the last code point of each run; `inRanges` looks a
character up in it.
-/

namespace LoxLang

/-- Whether the code point of `c` lies in one of the given ranges. -/
def inRanges (ranges : List (Nat × Nat)) (c : Char) : Bool :=
  ranges.any fun (first, last) => first ≤ c.toNat && c.toNat ≤ last

end LoxLang

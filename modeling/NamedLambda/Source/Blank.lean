/-! Blank characters are those with the Unicode property White_Space. -/

namespace NamedLambda

/-- The ranges of code points with the property White_Space, first and last included. -/
def blankRanges : List (Nat × Nat) :=
  [(0x09, 0x0D), (0x20, 0x20), (0x85, 0x85), (0xA0, 0xA0), (0x1680, 0x1680), (0x2000, 0x200A),
    (0x2028, 0x2029), (0x202F, 0x202F), (0x205F, 0x205F), (0x3000, 0x3000)]

/-- Whether a character separates the words of a source text. -/
def isBlank (c : Char) : Bool :=
  blankRanges.any (fun (first, last) => decide (first ≤ c.toNat) && decide (c.toNat ≤ last))

end NamedLambda

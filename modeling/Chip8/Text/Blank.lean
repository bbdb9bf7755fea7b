/-!
# White space

The characters that may stand around a number: the ASCII ones from tab to carriage
return, the space, and the white space of Unicode beyond ASCII.
-/

namespace Chip8.Text

/-- The ranges of code points that are white space, each with its first and its last one. -/
def blankRanges : List (Nat × Nat) :=
  [(0x09, 0x0D), (0x20, 0x20), (0x85, 0x85), (0xA0, 0xA0), (0x1680, 0x1680), (0x2000, 0x200A),
   (0x2028, 0x2029), (0x202F, 0x202F), (0x205F, 0x205F), (0x3000, 0x3000)]

/-- Whether a character is white space. -/
def isBlank (c : Char) : Bool :=
  blankRanges.any fun (first, last) => first ≤ c.toNat && c.toNat ≤ last

end Chip8.Text

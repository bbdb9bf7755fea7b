/-!
# Decimal digits of a number

A number is stored for display as three decimal digits, the most significant first.
For the numbers of a byte these are digits in the usual sense; for any other integer
the hundreds take all that is left.
-/

namespace Chip8

/-- Three decimal digits. The hundreds of a large or a negative number are no single digit. -/
structure Digits where
  /-- How many hundreds, rounded down. -/
  hundreds : Int
  /-- The tens, from 0 to 9. -/
  tens : Int
  /-- The units, from 0 to 9. -/
  units : Int
  deriving DecidableEq

namespace Digits

/-- The decimal digits of an integer, with division rounding down. -/
def ofInt (b : Int) : Digits := ⟨b / 100, b / 10 % 10, b % 10⟩

/-- The digits in the order in which they are stored. -/
def toList (d : Digits) : List Int := [d.hundreds, d.tens, d.units]

/-- The number that digits stand for. -/
def value (d : Digits) : Int := 100 * d.hundreds + 10 * d.tens + d.units

/-- The digits of a number stand for it. -/
@[simp] theorem value_ofInt (b : Int) : (ofInt b).value = b := by
  simp only [value, ofInt]
  omega

end Digits

end Chip8

/-!
# Numbers in hexadecimal

Addresses, words and bytes are shown in lower-case hexadecimal with a least
width. The width counts the minus sign of a negative number, and the zeros that
fill it stand between the sign and the digits, so minus one in four places is
`-001`. A number that needs more places than the width takes them.
-/

namespace Chip8.Text

/-- The sign of `n` as it is written: nothing for a number that is not negative. -/
def sign (n : Int) : List Char := if n < 0 then ['-'] else []

/-- `hex width n`: the integer `n` in base sixteen, in at least `width` places. -/
def hex (width : Nat) (n : Int) : String :=
  let digits := Nat.toDigits 16 n.natAbs
  let fill := List.replicate (width - (sign n).length - digits.length) '0'
  String.ofList (sign n ++ fill ++ digits)

/-- A byte in two places. -/
def hexByte (b : UInt8) : String := hex 2 b.toNat

example : hex 4 (-1) = "-001" ∧ hex 2 (-1) = "-1" ∧ hex 3 0x12345 = "12345" := by decide

end Chip8.Text

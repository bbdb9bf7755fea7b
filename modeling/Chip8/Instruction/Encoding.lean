import Chip8.Instruction.Basic

/-!
# Instructions as words

`encode` gives the word of an instruction. Which integers stand for it is a matter of
the decoder, which looks at more than the word in one place only: the two instructions
whose first nibble is zero must be the whole number.
-/

namespace Chip8.Instruction

/-- A word `0xABCD` of a family `A` with three operand nibbles. -/
def wordOf (op : Nat) (x y n : Nat) : Nat := ((op * 16 + x) * 16 + y) * 16 + n

/-- A word of a family with a register and a byte. -/
def wordOfByte (op : Nat) (x : Nibble) (byte : UInt8) : Nat := (op * 16 + x) * 256 + byte.toNat

/-- A word of a family with an address. -/
def wordOfAddress (op : Nat) (address : Fin 4096) : Nat := op * 4096 + address

/-- The word of an instruction. -/
def encode : Instruction → Nat
  | .clear => 0x00E0
  | .ret => 0x00EE
  | .jump a => wordOfAddress 0x1 a
  | .call a => wordOfAddress 0x2 a
  | .skipEq x b => wordOfByte 0x3 x b
  | .skipNe x b => wordOfByte 0x4 x b
  | .skipSame x y => wordOf 0x5 x y 0x0
  | .set x b => wordOfByte 0x6 x b
  | .add x b => wordOfByte 0x7 x b
  | .move x y => wordOf 0x8 x y 0x0
  | .or x y => wordOf 0x8 x y 0x1
  | .index a => wordOfAddress 0xA a
  | .draw x y n => wordOf 0xD x y n
  | .decimal x => wordOfByte 0xF x 0x33
  | .store x => wordOfByte 0xF x 0x55
  | .load x => wordOfByte 0xF x 0x65

end Chip8.Instruction

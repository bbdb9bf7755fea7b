import Chip8.Text.Hex
import Chip8.Word

/-!
# Instructions

The sixteen instructions of the machine, with their operands, and how each is
written. Operands are ranges of numbers and not integers: an instruction cannot name
a register that does not exist.
-/

namespace Chip8

/-- An instruction. -/
inductive Instruction
  /-- Clear the screen. -/
  | clear
  /-- Return from a call. -/
  | ret
  /-- Go on at an address. -/
  | jump (address : Fin 4096)
  /-- Call the routine at an address. -/
  | call (address : Fin 4096)
  /-- Skip the next instruction if the register holds the byte. -/
  | skipEq (x : Nibble) (byte : UInt8)
  /-- Skip the next instruction if the register does not hold the byte. -/
  | skipNe (x : Nibble) (byte : UInt8)
  /-- Skip the next instruction if two registers hold the same. -/
  | skipSame (x y : Nibble)
  /-- Put a byte into the register. -/
  | set (x : Nibble) (byte : UInt8)
  /-- Add a byte to the register, without a carry. -/
  | add (x : Nibble) (byte : UInt8)
  /-- Copy the second register to the first. -/
  | move (x y : Nibble)
  /-- Take the bits of both registers together into the first. -/
  | or (x y : Nibble)
  /-- Put an address into the index register. -/
  | index (address : Fin 4096)
  /-- Draw the sprite of `height` rows at the index register. -/
  | draw (x y : Nibble) (height : Nibble)
  /-- Store the decimal digits of a register. -/
  | decimal (x : Nibble)
  /-- Store registers from V0 on. -/
  | store (x : Nibble)
  /-- Load registers from V0 on. -/
  | load (x : Nibble)
  deriving DecidableEq

namespace Instruction

/-- A register as it is written. -/
def registerName (r : Nibble) : String := "V" ++ Text.hex 1 r.val

/-- An address operand as it is written. -/
def addressText (a : Fin 4096) : String := "0x" ++ Text.hex 3 a.val

/-- A byte operand as it is written. -/
def byteText (b : UInt8) : String := "0x" ++ Text.hexByte b

/-- How an instruction is written. -/
def mnemonic : Instruction → String
  | .clear => "CLS"
  | .ret => "RET"
  | .jump a => "JP " ++ addressText a
  | .call a => "CALL " ++ addressText a
  | .skipEq x b => "SE " ++ registerName x ++ ", " ++ byteText b
  | .skipNe x b => "SNE " ++ registerName x ++ ", " ++ byteText b
  | .skipSame x y => "SE " ++ registerName x ++ ", " ++ registerName y
  | .set x b => "LD " ++ registerName x ++ ", " ++ byteText b
  | .add x b => "ADD " ++ registerName x ++ ", " ++ byteText b
  | .move x y => "LD " ++ registerName x ++ ", " ++ registerName y
  | .or x y => "OR " ++ registerName x ++ ", " ++ registerName y
  | .index a => "LD I, " ++ addressText a
  | .draw x y n =>
    "DRW " ++ registerName x ++ ", " ++ registerName y ++ ", 0x" ++ Text.hex 1 n.val
  | .decimal x => "LD B, " ++ registerName x
  | .store x => "LD [I], " ++ registerName x
  | .load x => "LD " ++ registerName x ++ ", [I]"

end Instruction

end Chip8

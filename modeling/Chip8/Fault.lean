import Chip8.Text.Hex

/-!
# Faults

Everything that can stop a running program, by its cause. The words in which a fault
is reported are in `Fault.message` and nowhere else.
-/

namespace Chip8

/-- The name of the program and its version, as every report of its own begins. -/
def signature : String := "ChocChip Core V0.1.0 -- "

/-- Why an operation of the machine was refused. -/
inductive Fault
  /-- An access to `address` of a bank whose last address is `top`. An empty bank has
  the top `-1`. -/
  | outOfBounds (address top : Int)
  /-- There is no register of this number. -/
  | noRegister (index : Int)
  /-- The call stack holds as many addresses as it can. -/
  | stackOverflow
  /-- The call stack holds no address. -/
  | stackUnderflow
  /-- The integer `opcode`, fetched from `address`, is no instruction of this machine. -/
  | notEmulated (opcode : Int) (address : UInt16)
  deriving DecidableEq

/-- The words in which a fault is reported. -/
def Fault.message : Fault → String
  | .outOfBounds address top =>
    "Memory access at 0x" ++ Text.hex 4 address ++ " is outside 0x000-0x" ++ Text.hex 3 top
  | .noRegister index => "There is no register V" ++ toString index
  | .stackOverflow => "Stack overflow"
  | .stackUnderflow => "Stack underflow"
  | .notEmulated opcode address =>
    signature ++ "Opcode 0x" ++ Text.hex 4 opcode ++ " at address 0x"
      ++ Text.hex 3 address.toNat ++ " is not emulated."

end Chip8

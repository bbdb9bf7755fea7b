import Chip8.Memory.Basic

/-!
# The operations of a bank as data

A history of a bank is a list of commands. `Memory.perform` runs one of them and
answers with what it returns; a command that faults leaves the bank as its operation
left it, and the next one goes on from there.
-/

namespace Chip8.Memory

/-- One operation on a bank, with its arguments. -/
inductive Command
  /-- Check that an address is in the bank. -/
  | check (a : Int)
  /-- Read a byte. -/
  | read (a : Int)
  /-- Read a block. -/
  | readBlock (a size : Int)
  /-- Read a word. -/
  | readWord (a : Int)
  /-- Write a byte. -/
  | write (a b : Int)
  /-- Write a block. -/
  | writeBlock (a : Int) (block : List UInt8)
  /-- Write a word. -/
  | writeWord (a w : Int)
  /-- Copy a block to `target`. -/
  | copyBlock (a size target : Int)

/-- What a command returns. -/
inductive Reply
  /-- Nothing. -/
  | done
  /-- A byte or a word. -/
  | number (n : Nat)
  /-- A block. -/
  | block (bytes : List UInt8)

/-- Runs one command. -/
def perform : Command → Exec Memory Reply
  | .check a => do check a; return .done
  | .read a => return .number (← read a).toNat
  | .readBlock a size => return .block (← readBlock a size)
  | .readWord a => return .number (← readWord a).toNat
  | .write a b => do write a b; return .done
  | .writeBlock a block => do writeBlock a block; return .done
  | .writeWord a w => do writeWord a w; return .done
  | .copyBlock a size target => do copyBlock a size target; return .done

end Chip8.Memory

import Chip8.Machine.Basic

/-!
# The monitor

The operations that a caller may perform on a machine from outside, as data: reading
and writing its parts, using its stack, exchanging parts, executing and reporting. A
session is a list of commands. A command that faults leaves the machine as its
operation left it, and the next one goes on from there.
-/

namespace Chip8.Machine

/-- One operation on a machine, with its arguments. -/
inductive Command
  /-- Copy a program into memory. -/
  | load (program : List UInt8) (location : Int)
  /-- Read a byte of memory. -/
  | readByte (location : Int)
  /-- Read a word of memory. -/
  | readWord (location : Int)
  /-- Read a block of memory. -/
  | readBlock (location size : Int)
  /-- Write a byte of memory. -/
  | writeByte (location byte : Int)
  /-- Write a word of memory. -/
  | writeWord (location word : Int)
  /-- Check that a register exists. -/
  | checkRegister (index : Int)
  /-- Read a register. -/
  | readRegister (index : Int)
  /-- Write a register. -/
  | writeRegister (index byte : Int)
  /-- Assign I. -/
  | setI (value : Int)
  /-- Assign PC. -/
  | setPC (value : Int)
  /-- Assign SP. -/
  | setSP (value : Int)
  /-- Save an address on the call stack. -/
  | push (address : Int)
  /-- Take an address from the call stack. -/
  | pop
  /-- Read the addresses on the call stack. -/
  | savedAddresses
  /-- Put in another call stack. -/
  | useStack (stack : CallStack)
  /-- Put in a new processor, which takes over the journal's setting. -/
  | newProcessor (transferAll : Bool)
  /-- Read the word at PC. -/
  | fetch
  /-- Execute the instruction at PC. -/
  | step
  /-- Execute an opcode. -/
  | execute (opcode : Int)
  /-- Move PC on to the next instruction. -/
  | advance
  /-- Run the program. -/
  | run (start limit : Option Int)
  /-- Tell the journal whether new processors are to trace. -/
  | setTracing (setting : Setting)
  /-- Ask the journal what it was last told about tracing. -/
  | tracing
  /-- Ask for a line with a label, and if `full` holds for the call stack too. -/
  | describe (label : String) (full : Bool)
  /-- Report a line with a label. -/
  | note (label : String)
  /-- Report a crash. -/
  | reportCrash (reason : String)
  /-- Report the words of a program. -/
  | list (program : List UInt8) (location : Int)

/-- What a command returns. -/
inductive Reply
  /-- Nothing. -/
  | done
  /-- A byte, a word or an address. -/
  | number (n : Int)
  /-- A block of memory. -/
  | block (bytes : List UInt8)
  /-- The addresses on the call stack, oldest first. -/
  | addresses (as : List Int)
  /-- How a run ended. -/
  | ran (result : RunEnd)
  /-- A setting. -/
  | setting (s : Setting)
  /-- A report that was asked for and not written. -/
  | text (s : String)

/-- A report with a label, of the registers and if `full` holds of the call stack too. -/
def describe (label : String) (full : Bool) : Exec Machine String := do
  let seen := (← get).snapshot
  if full then
    return seen.fullText label (← onBoard Board.savedAddresses)
  else
    return seen.text label

/-- Performs one command. A run without a limit is followed for `fuel` steps. -/
def perform (fuel : Nat) : Command → Exec Machine Reply
  | .load program location => do onMemory (Memory.writeBlock location program); return .done
  | .readByte a => return .number (← onMemory (Memory.read a)).toNat
  | .readWord a => return .number (← onMemory (Memory.readWord a)).toNat
  | .readBlock a size => return .block (← onMemory (Memory.readBlock a size))
  | .writeByte a b => do onMemory (Memory.write a b); return .done
  | .writeWord a w => do onMemory (Memory.writeWord a w); return .done
  | .checkRegister index => do let _ ← onRegisters (Registers.find index); return .done
  | .readRegister index => return .number (← onRegisters (Registers.read index)).toNat
  | .writeRegister index b => do onRegisters (Registers.write index b); return .done
  | .setI value => do onBoard (Board.move (·.setI value)); return .done
  | .setPC value => do onBoard (Board.move (·.setPC value)); return .done
  | .setSP value => do onBoard (Board.move (·.setSP value)); return .done
  | .push address => do onBoard (Board.push address); return .done
  | .pop => return .number (← onBoard Board.pop)
  | .savedAddresses => return .addresses (← onBoard Board.savedAddresses)
  | .useStack stack => do onBoard (Board.replaceStack stack); return .done
  | .newProcessor transferAll => do
    let m ← get
    changeProcessor fun _ => Processor.blank transferAll m.journal.live m.registers.pc
    return .done
  | .fetch => return .number (← fetch).toNat
  | .step => do step; return .done
  | .execute opcode => do executeOpcode opcode; return .done
  | .advance => do onBoard (Board.move Registers.advance); return .done
  | .run start limit => return .ran (← run start limit fuel)
  | .setTracing setting => do changeJournal ({ · with setting := setting }); return .done
  | .tracing => return .setting (← get).journal.setting
  | .describe label full => return .text (← describe label full)
  | .note label => do record (.note (← get).snapshot label); return .done
  | .reportCrash reason => do reportCrash reason; return .done
  | .list program location => do
    changeJournal (·.recordAll (Entry.listing location program))
    return .done

end Chip8.Machine

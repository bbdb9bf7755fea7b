import Chip8.CallStack
import Chip8.Memory.Basic
import Chip8.Registers
import Chip8.Screen

/-!
# The board

What an instruction can act on: memory, registers, call stack and screen, wired
together. The operations that need more than one of them are defined here: pushing and
popping, which move SP and, for an overlay, read and write memory, and loading
registers from memory.
-/

namespace Chip8

/-- The size of the memory of the machine as it is usually built. -/
def memorySize : Int := 0x1000

/-- Memory, registers, call stack and screen. -/
structure Board where
  /-- The memory. -/
  memory : Memory
  /-- Registers and pointers. -/
  registers : Registers
  /-- Where return addresses are kept. -/
  stack : CallStack
  /-- What passes to and from the screen. -/
  screen : Screen

namespace Board

variable {α : Type}

/-- An operation on the memory alone. -/
def onMemory : Exec Memory α → Exec Board α :=
  Exec.within Board.memory fun m b => { b with memory := m }

/-- An operation on the registers alone. -/
def onRegisters : Exec Registers α → Exec Board α :=
  Exec.within Board.registers fun r b => { b with registers := r }

/-- A change of the registers that cannot fault. -/
def move (f : Registers → Registers) : Exec Board Unit :=
  modify fun b => { b with registers := f b.registers }

/-- A request to the screen. -/
def ask (f : Screen → Screen) : Exec Board Unit := modify fun b => { b with screen := f b.screen }

/-- Puts another call stack into the board. -/
def replaceStack (stack : CallStack) : Exec Board Unit := modify ({ · with stack := stack })

/-! ### The call stack -/

/-- Saves an address. A dedicated stack that is full refuses it and nothing changes. An
overlay moves SP first and then writes the low sixteen bits there, so SP stays moved
when the write faults. -/
def push (address : Int) : Exec Board Unit := do
  match (← get).stack with
  | .dedicated capacity addresses =>
    if capacity ≤ addresses.length then throw .stackOverflow
    move fun r => r.setSP (r.sp.toNat + 2)
    replaceStack (.dedicated capacity (address :: addresses))
  | .overlay =>
    move fun r => r.setSP (r.sp.toNat + 2)
    onMemory (Memory.writeWord (← get).registers.sp.toNat address)

/-- Takes the most recent address back. A dedicated stack that is empty refuses. An
overlay reads the word at SP and then moves SP, so a fault of the read changes nothing. -/
def pop : Exec Board Int := do
  match (← get).stack with
  | .dedicated capacity addresses =>
    match addresses with
    | [] => throw .stackUnderflow
    | address :: rest =>
      replaceStack (.dedicated capacity rest)
      move fun r => r.setSP (r.sp.toNat - 2)
      return address
  | .overlay =>
    let address ← onMemory (Memory.readWord (← get).registers.sp.toNat)
    move fun r => r.setSP (r.sp.toNat - 2)
    return address.toNat

/-- The saved addresses, oldest first. In an overlay they are the words at 2, 4, and so
on up to SP. -/
def savedAddresses : Exec Board (List Int) := do
  match (← get).stack with
  | .dedicated _ addresses => return addresses.reverse
  | .overlay =>
    (List.range ((← get).registers.sp.toNat / 2)).mapM fun k => do
      let address ← onMemory (Memory.readWord (2 * (k + 1) : Nat))
      return (address.toNat : Int)

/-! ### Registers and memory -/

/-- Fills registers, in the order given, from the bytes at `a` and up. Each byte is in
its register before the next one is read. -/
def loadEach (a : Int) : List Nibble → Exec Board Unit
  | [] => pure ()
  | x :: rest => do
    let b ← onMemory (Memory.read a)
    move (·.set x b)
    loadEach (a + 1) rest

end Board

end Chip8

import Chip8.Execution
import Chip8.Instruction.Decoder
import Chip8.Journal

/-!
# The machine

A board with a processor and a journal. The processor is what remembers the last
word, its fields and the address it was fetched from, and how it was built: whether
block transfers take all registers, and whether it traces. It is built with the
journal's setting and keeps it, whatever the journal is told afterwards.

One step fetches a word at PC, decodes it and executes the instruction. If the fetch
faults, only the address in the processor has changed; if the word is no instruction,
also the word and its fields. The trace is written when the instruction is known and
before it has any effect.

A run takes steps until its limit, or until one of them faults. Then it reports the
crash and passes the fault on. The report reads the call stack, and where that is an
overlay the reading may fault in turn: its fault takes the place of the first one.
-/

namespace Chip8

/-- The part of the machine that decodes. -/
structure Processor where
  /-- Whether block transfers take all sixteen registers. -/
  transferAll : Bool
  /-- Whether instructions are traced. -/
  live : Bool
  /-- The last word, which may be any integer if a caller chose it. -/
  opcode : Int
  /-- The operand fields that were last decoded. -/
  fields : Fields
  /-- The address from which the last word was fetched. -/
  origin : UInt16

/-- A processor that has not decoded anything yet. -/
def Processor.blank (transferAll live : Bool) (pc : UInt16) : Processor :=
  ⟨transferAll, live, 0, Fields.ofWord 0, pc⟩

/-- A board, a processor and a journal. -/
structure Machine where
  /-- Memory, registers, call stack and screen. -/
  board : Board
  /-- The part that decodes. -/
  processor : Processor
  /-- What was reported. -/
  journal : Journal

namespace Machine

/-- Puts a machine together before a program starts. The processor comes last and takes
over the journal's setting. -/
def build (memory : Memory) (stack : CallStack) (screen : Screen) (transferAll : Bool)
    (tracing : Setting) : Machine where
  board := ⟨memory, Registers.initial, stack, screen⟩
  processor := Processor.blank transferAll tracing.isOn Registers.initial.pc
  journal := Journal.ofSetting tracing

/-- The registers of the board. -/
def registers (m : Machine) : Registers := m.board.registers

/-- The memory of the board. -/
def memory (m : Machine) : Memory := m.board.memory

/-- What a trace line would show now. -/
def snapshot (m : Machine) : Snapshot :=
  ⟨m.registers.v, m.registers.i, m.registers.sp, m.processor.origin, m.processor.opcode⟩

/-- An operation on the board alone. -/
def onBoard {α : Type} : Exec Board α → Exec Machine α :=
  Exec.within Machine.board fun b m => { m with board := b }

/-- An operation on the memory alone. -/
def onMemory {α : Type} (x : Exec Memory α) : Exec Machine α := onBoard (Board.onMemory x)

/-- An operation on the registers alone. -/
def onRegisters {α : Type} (x : Exec Registers α) : Exec Machine α :=
  onBoard (Board.onRegisters x)

/-- A change of the processor. -/
def changeProcessor (f : Processor → Processor) : Exec Machine Unit :=
  modify fun m => { m with processor := f m.processor }

/-- A change of the journal. -/
def changeJournal (f : Journal → Journal) : Exec Machine Unit :=
  modify fun m => { m with journal := f m.journal }

/-- Reports an entry. -/
def record (e : Entry) : Exec Machine Unit := changeJournal (·.record e)

/-- The word at PC. -/
def fetch : Exec Machine UInt16 := do
  onMemory (Memory.readWord (← get).registers.pc.toNat)

/-- Takes a word as the one to be decoded. -/
def latch (opcode : Int) : Exec Machine Unit := changeProcessor ({ · with opcode := opcode })

/-- Decodes the word in the processor and executes its instruction. -/
def decodeExecute : Exec Machine Unit := do
  changeProcessor fun p => { p with fields := Fields.ofWord p.opcode }
  let m ← get
  match Instruction.decode? m.processor.opcode with
  | none => throw (.notEmulated m.processor.opcode m.processor.origin)
  | some instruction =>
    if m.processor.live then record (.trace m.snapshot instruction)
    onBoard (execute m.processor.transferAll instruction)

/-- Executes an opcode that a caller chose, as if it had been fetched where the last one was. -/
def executeOpcode (opcode : Int) : Exec Machine Unit := do
  latch opcode
  decodeExecute

/-- Fetches the word at PC, decodes it and executes its instruction. -/
def step : Exec Machine Unit := do
  let pc := (← get).registers.pc
  changeProcessor ({ · with origin := pc })
  let word ← fetch
  latch word.toNat
  decodeExecute

/-- So many steps, or as many of them as succeed. -/
def steps : Nat → Exec Machine Unit
  | 0 => pure ()
  | n + 1 => do
    step
    steps n

/-- Reports that a run was stopped and in which state. -/
def reportCrash (reason : String) : Exec Machine Unit := do
  record (.halted reason)
  let addresses ← onBoard Board.savedAddresses
  record (.crash (← get).snapshot addresses)

/-- An operation whose fault is reported before it is passed on. -/
def reporting {α : Type} (x : Exec Machine α) : Exec Machine α :=
  tryCatch x fun fault => do
    reportCrash fault.message
    throw fault

/-- How a run ended that no fault stopped. -/
inductive RunEnd
  /-- It executed as many instructions as its limit allows. -/
  | finished (count : Nat)
  /-- It has no limit and is still going on after the steps it was followed for. -/
  | unfinished
  deriving DecidableEq

/-- Runs the program, from `start` if that is given and from PC otherwise. With a limit,
the run ends after that many instructions, and a limit that is not positive executes
nothing. Without one only a fault ends it, and it is followed for `fuel` steps. -/
def run (start limit : Option Int) (fuel : Nat) : Exec Machine RunEnd := do
  match start with
  | some address => onBoard (Board.move (·.setPC address))
  | none => pure ()
  match limit with
  | some n =>
    reporting (steps n.toNat)
    return .finished n.toNat
  | none =>
    reporting (steps fuel)
    return .unfinished

end Machine

end Chip8

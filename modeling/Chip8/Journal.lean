import Chip8.Instruction.Basic
import Chip8.Registers
import Chip8.Setting

/-!
# The journal

What the machine reports about itself. A report is kept as an `Entry`, which says
what was reported and holds the values that it shows; `Entry.text` puts it in words.
So a statement about a report is about values, and the words are a matter of their
own.

A `Snapshot` is what a trace line shows: the registers from VF down to V0, I and SP as
they are, and the last word with the address that it was fetched from.
-/

namespace Chip8

/-- What a trace line shows of the machine. -/
structure Snapshot where
  /-- The registers V0 to VF. -/
  v : Vector UInt8 16
  /-- The index register. -/
  i : UInt16
  /-- The stack pointer. -/
  sp : UInt8
  /-- The address from which the last word was fetched. -/
  origin : UInt16
  /-- The last word. -/
  opcode : Int

namespace Snapshot

/-- The registers, VF first and without a gap. -/
def registerText (s : Snapshot) : String := String.join (s.v.toList.reverse.map Text.hexByte)

/-- A snapshot as one line, which ends with a label: the instruction, or what stands for it. -/
def text (s : Snapshot) (label : String) : String :=
  "V: 0x" ++ s.registerText ++ " I: 0x" ++ Text.hex 4 s.i.toNat ++ " SP: 0x" ++ Text.hexByte s.sp
    ++ " PC: 0x" ++ Text.hex 3 s.origin.toNat ++ " OP: 0x" ++ Text.hex 4 s.opcode ++ " IN: " ++ label

/-- The addresses on the call stack, oldest first. -/
def stackText (addresses : List Int) : String :=
  if addresses.isEmpty then " (Empty)"
  else String.join (addresses.map fun a => " 0x" ++ Text.hex 3 a)

/-- A snapshot with a second line for the call stack. -/
def fullText (s : Snapshot) (label : String) (addresses : List Int) : String :=
  s.text label ++ "\nStack:" ++ stackText addresses

end Snapshot

/-- One thing that was reported. -/
inductive Entry
  /-- An instruction is about to be executed. -/
  | trace (seen : Snapshot) (instruction : Instruction)
  /-- A caller asked for a line with a label of its own. -/
  | note (seen : Snapshot) (label : String)
  /-- The run was stopped, for the reason given. -/
  | halted (reason : String)
  /-- The state in which the run was stopped. -/
  | crash (seen : Snapshot) (addresses : List Int)
  /-- A word of a program and where it is loaded. -/
  | listed (address : Int) (word : UInt16)

namespace Entry

/-- The label of a crash report, where the instruction is not known. -/
def unknownLabel : String := "???"

/-- The words in which an entry is reported, without the end of its last line. -/
def text : Entry → String
  | .trace seen instruction => seen.text instruction.mnemonic
  | .note seen label => seen.text label
  | .halted reason => "Emulation halted: " ++ reason
  | .crash seen addresses => seen.fullText unknownLabel addresses
  | .listed address word => Text.hex 3 address ++ "> " ++ Text.hex 4 word.toNat

/-- An entry as it is written out, line ends included. -/
def line (e : Entry) : String := e.text ++ "\n"

/-- The words of a program with their addresses. A last odd byte forms no word and is left out. -/
def listing (location : Int) : List UInt8 → List Entry
  | high :: low :: rest =>
    .listed location (Word.join high low) :: listing (location + 2) rest
  | _ => []

end Entry

/-- What was reported so far, and whether processors that are built from now on are to trace. -/
structure Journal where
  /-- What the journal was last told about tracing. -/
  setting : Setting
  /-- All that was reported, oldest first. -/
  entries : Array Entry

namespace Journal

/-- A journal in which nothing was reported yet. -/
def ofSetting (setting : Setting) : Journal := ⟨setting, #[]⟩

/-- Whether a new processor traces its instructions. -/
def live (j : Journal) : Bool := j.setting.isOn

/-- Adds an entry. -/
def record (j : Journal) (e : Entry) : Journal := { j with entries := j.entries.push e }

/-- Adds entries in order. -/
def recordAll (j : Journal) (es : List Entry) : Journal := { j with entries := j.entries ++ es }

end Journal

end Chip8

import Chip8.Instruction.Basic
import Chip8.Instruction.Fields

/-!
# The decoder

An integer is decoded by one table, in which it may be looked up twice. The first look
is by the first nibble `A` of its low sixteen bits `0xABCD`. Where that names a family
and not yet an instruction, the family says by which part of the integer to look again:

* family `0` by all of it, so that a wider integer that ends in `0x00E0` is none;
* families `5` and `8` by `0xA00D`;
* family `F` by `0xA0CD`.

The keys of the first look are the numbers below `0x10`. A second look could only meet
them in family `0`, and there an integer below `0x10` is not looked up at all.
-/

namespace Chip8.Instruction

/-- The part of an integer by which the instructions of a family are told apart. -/
inductive Part
  /-- All of it, also what is above its sixteen bits. -/
  | whole
  /-- The first nibble and the last one. -/
  | lastNibble
  /-- The first nibble and the low byte. -/
  | lastByte

/-- The key of the second look, if there is to be one. -/
def Part.key? : Part → Int → Option Int
  | .whole, w => if w < 0x10 then none else some w
  | .lastNibble, w => some (w / 4096 % 16 * 4096 + w % 16)
  | .lastByte, w => some (w / 4096 % 16 * 4096 + w % 256)

/-- What the table holds under a key. -/
inductive Slot
  /-- A family, in which a second look is needed. -/
  | family (part : Part)
  /-- An instruction, which takes its operands from the fields. -/
  | form (read : Fields → Instruction)

/-- The table of both looks. -/
def table : List (Int × Slot) :=
  [(0x0, .family .whole),
   (0x1, .form fun f => .jump f.nnn),
   (0x2, .form fun f => .call f.nnn),
   (0x3, .form fun f => .skipEq f.x f.kk),
   (0x4, .form fun f => .skipNe f.x f.kk),
   (0x5, .family .lastNibble),
   (0x6, .form fun f => .set f.x f.kk),
   (0x7, .form fun f => .add f.x f.kk),
   (0x8, .family .lastNibble),
   (0xA, .form fun f => .index f.nnn),
   (0xD, .form fun f => .draw f.x f.y f.n),
   (0xF, .family .lastByte),
   (0x00E0, .form fun _ => .clear),
   (0x00EE, .form fun _ => .ret),
   (0x5000, .form fun f => .skipSame f.x f.y),
   (0x8000, .form fun f => .move f.x f.y),
   (0x8001, .form fun f => .or f.x f.y),
   (0xF033, .form fun f => .decimal f.x),
   (0xF055, .form fun f => .store f.x),
   (0xF065, .form fun f => .load f.x)]

/-- What the table holds under a key, if it holds anything. -/
def look (key : Int) : Option Slot := table.lookup key

/-- The instruction that an integer is, if it is one. -/
def decode? (opcode : Int) : Option Instruction := do
  let fields := Fields.ofWord opcode
  match ← look fields.op.val with
  | .form read => return read fields
  | .family part =>
    match ← look (← part.key? opcode) with
    | .form read => return read fields
    | .family _ => none

end Chip8.Instruction

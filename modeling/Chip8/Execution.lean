import Chip8.Board
import Chip8.Decimal
import Chip8.Instruction.Basic

/-!
# What an instruction does

`execute` says what each instruction does to a board. It knows nothing of tracing, of
the word that the instruction was decoded from or of where that was fetched, so none
of them can have an influence.

Every instruction moves PC itself: most of them on to the next instruction, a skip
perhaps one further, and jumps, calls and returns to where they lead. Its last act is
to move PC, so a fault finds PC where it was.

Storing and loading registers goes from V0 up to the register named by the
instruction, or through all of them if the machine was built to transfer all. It goes
byte by byte: what was transferred before a fault stays so. The index register does
not move.
-/

namespace Chip8

open Board

/-- The registers from V0 up to the last one that a block transfer takes. -/
def blockRegisters (transferAll : Bool) (x : Nibble) : List Nibble :=
  if transferAll then List.finRange 16 else (List.finRange 16).take (x + 1)

/-- What an instruction does. -/
def execute (transferAll : Bool) : Instruction → Exec Board Unit
  | .clear => do
    ask Screen.clear
    move Registers.advance
  | .ret => do
    let address ← pop
    move (·.setPC address)
  | .jump a => move (·.setPC a.val)
  | .call a => do
    push ((← get).registers.pc.toNat + 2)
    move (·.setPC a.val)
  | .skipEq x byte => move fun r => r.skipIf (r.get x == byte)
  | .skipNe x byte => move fun r => r.skipIf (r.get x != byte)
  | .skipSame x y => move fun r => r.skipIf (r.get x == r.get y)
  | .set x byte => move fun r => (r.set x byte).advance
  | .add x byte => move fun r => (r.set x (r.get x + byte)).advance
  | .move x y => move fun r => (r.set x (r.get y)).advance
  | .or x y => move fun r => (r.set x (r.get x ||| r.get y)).advance
  | .index a => move fun r => (r.setI a.val).advance
  | .draw x y height => do
    let b ← get
    let sprite ← onMemory (Memory.readBlock b.registers.i.toNat height.val)
    ask (·.draw sprite (b.registers.get x) (b.registers.get y))
    move fun r => (r.set 0xF (if b.screen.collides then 1 else 0)).advance
  | .decimal x => do
    let r := (← get).registers
    onMemory (Memory.writeEach r.i.toNat (Digits.ofInt (r.get x).toNat).toList)
    move Registers.advance
  | .store x => do
    let r := (← get).registers
    onMemory (Memory.writeEach r.i.toNat
      ((blockRegisters transferAll x).map fun y => ((r.get y).toNat : Int)))
    move Registers.advance
  | .load x => do
    loadEach (← get).registers.i.toNat (blockRegisters transferAll x)
    move Registers.advance

end Chip8

import Chip8.Machine.Basic
import Chip8.Runs

/-!
# Which opcodes are executed

A survey tries opcodes one by one, each on a machine of its own that has an address
to return to and an index register that points into memory, so that nothing but the
opcode can be the reason for a fault.
-/

namespace Chip8.Machine

/-- The machine as it is usually built, with nothing loaded. -/
def standard : Machine :=
  build (Memory.blank memorySize) (CallStack.empty CallStack.usualDepth) (Screen.ofAnswers [])
    true Setting.off

/-- Makes a machine ready for any one instruction. -/
def prepare : Exec Machine Unit := do
  onBoard (Board.push 0x234)
  onBoard (Board.move (·.setI 0x300))

/-- Whether an opcode is executed by a machine that is ready for it. -/
def executes (opcode : Int) : Bool :=
  match (do prepare; executeOpcode opcode : Exec Machine Unit).answer standard with
  | .ok _ => true
  | .error _ => false

/-- The runs of opcodes from `first` to `last` that are executed. -/
def survey (first last : Int) : List (Run Unit) :=
  Run.ofList first ((List.range (last - first + 1).toNat).map fun (k : Nat) =>
    if executes (first + k) then some () else none)

end Chip8.Machine

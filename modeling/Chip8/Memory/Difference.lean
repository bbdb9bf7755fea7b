import Chip8.Memory.Basic
import Chip8.Runs

/-!
# What changed in a bank

Two states of one bank are compared byte by byte. A byte that was written with the
value it had is no change.
-/

namespace Chip8.Memory

/-- The new bytes of the addresses at which two states of a bank differ, as runs from the lowest up. -/
def changes (before after : Memory) : List (Run UInt8) :=
  Run.ofList 0 (List.zipWith (fun old new => if new = old then none else some new)
    before.cells.toList after.cells.toList)

end Chip8.Memory

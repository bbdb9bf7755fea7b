/-!
# The call stack

A call saves the address to return to. There are two places for it. A *dedicated*
stack is a list beside memory that holds up to a given number of addresses, as the
integers they were pushed as. An *overlay* is no store of its own: the addresses are
words in memory, at the place that SP points to, so they can be read and overwritten
like any other bytes. In both cases SP moves by two with every push and pop, which is
why pushing and popping are operations of the `Board`, where stack, registers and
memory meet.
-/

namespace Chip8

/-- Where return addresses are kept. -/
inductive CallStack
  /-- A list beside memory for `capacity` addresses, the most recent one first. -/
  | dedicated (capacity : Int) (addresses : List Int)
  /-- Words in memory. -/
  | overlay

namespace CallStack

/-- An empty list beside memory. -/
def empty (capacity : Int) : CallStack := .dedicated capacity []

/-- The depth of the stack of the machine as it is usually built. -/
def usualDepth : Int := 16

/-- The addresses that the stack itself holds, oldest first. -/
def items : CallStack → List Int
  | .dedicated _ addresses => addresses.reverse
  | .overlay => []

end CallStack

end Chip8

import Chip8.Setting

/-!
# Options of a launch

What a caller may choose: the file with the program, how many instructions to
execute, whether to list the program instead, whether to trace, where return
addresses are kept and how far block transfers go. All options must be given, and a
launch that misses one says so when it comes to need it.
-/

namespace Chip8

/-- How many instructions a run executes. -/
inductive Limit
  /-- As many as usual, because no choice was made. -/
  | usual
  /-- As many as there are until a fault. -/
  | unlimited
  /-- At most so many. -/
  | upTo (n : Int)
  deriving DecidableEq

namespace Limit

/-- The number of instructions that a run executes when no choice was made. -/
def usualCount : Int := 100

/-- The limit that a number stands for: zero takes the limit away. -/
def ofInt (n : Int) : Limit := if n = 0 then .unlimited else .upTo n

/-- The largest number of instructions, if there is one. -/
def count? : Limit → Option Int
  | .usual => some usualCount
  | .unlimited => none
  | .upTo n => some n

end Limit

/-- The options by name. -/
inductive OptionName
  /-- Where return addresses are kept. -/
  | overlayStack
  /-- How far block transfers go. -/
  | transferAll
  /-- The file with the program. -/
  | filename
  /-- Whether to trace. -/
  | debug
  /-- Whether to list the program instead of running it. -/
  | list
  /-- How many instructions to execute. -/
  | cycles
  deriving DecidableEq

/-- The name of an option as a caller writes it. -/
def OptionName.key : OptionName → String
  | .overlayStack => "stack_quirks"
  | .transferAll => "block_quirks"
  | .filename => "filename"
  | .debug => "debug"
  | .list => "list"
  | .cycles => "cycles"

/-- The options of a launch; `none` stands for one that was not given. -/
structure Options where
  /-- The file with the program. -/
  filename : Option String
  /-- How many instructions to execute. -/
  cycles : Option Limit
  /-- Whether to list the program instead of running it. -/
  list : Option Setting
  /-- Whether to trace. -/
  debug : Option Setting
  /-- Whether return addresses are kept in memory. -/
  overlayStack : Option Setting
  /-- Whether block transfers take all registers. -/
  transferAll : Option Setting

end Chip8

import Chip8.Launch.Options

/-!
# Arguments

What a command line says once it was understood. Each argument becomes an option of
the launch, so none of them is ever missing.

An option that has a value may have been given without one, which is not the same as
not to have been given: a run then has no limit, and a switch is off even where it
would be on without a choice.
-/

namespace Chip8.CommandLine

/-- What a command line says about an option that has a value. -/
inductive Choice (α : Type)
  /-- The option was not given. -/
  | absent
  /-- The option was given without a value. -/
  | blank
  /-- The option was given with a value. -/
  | value (a : α)
  deriving DecidableEq

/-- A command line that was understood. -/
structure Arguments where
  /-- The file with the program. -/
  filename : String
  /-- How many instructions to execute. -/
  cycles : Choice Int
  /-- Whether to list the program instead of running it. -/
  list : Bool
  /-- Whether to trace. -/
  debug : Bool
  /-- Whether return addresses are kept in memory. -/
  overlayStack : Choice Bool
  /-- Whether block transfers take all registers. -/
  transferAll : Choice Bool
  deriving DecidableEq

/-- The limit of a run that is chosen by a number. -/
def Choice.limit : Choice Int → Limit
  | .absent => .usual
  | .blank => .unlimited
  | .value n => .ofInt n

/-- The setting of a switch that need not be given. -/
def Choice.setting : Choice Bool → Setting
  | .absent => .unset
  | .blank => .flag false
  | .value b => .flag b

/-- The options of the launch that a command line asks for. -/
def Arguments.options (a : Arguments) : Options where
  filename := some a.filename
  cycles := some a.cycles.limit
  list := some (.flag a.list)
  debug := some (.flag a.debug)
  overlayStack := some a.overlayStack.setting
  transferAll := some a.transferAll.setting

end Chip8.CommandLine

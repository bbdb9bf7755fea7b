/-!
# Settings

Switches are typed loosely: a caller may give any value at all, and it is on when it
says so in any way. Nothing, zero, an empty text and an empty collection are off, and
all else is on, whatever it holds. Where a setting is asked for again it is given back
as the value that it was.
-/

namespace Chip8

/-- A value that was given for a switch. -/
inductive Setting
  /-- No choice was made. -/
  | unset
  /-- A flag. -/
  | flag (b : Bool)
  /-- An integer. -/
  | number (n : Int)
  /-- A number that is written as a decimal: a sign, digits, and the power of ten that they
  are multiplied by. Zero has a sign as well. -/
  | decimal (negative : Bool) (digits : Nat) (exponent : Int)
  /-- A text. -/
  | text (s : String)
  /-- A list of values. -/
  | list (items : List Setting)
  /-- Values with names. -/
  | record (fields : List (String × Setting))
  deriving Inhabited

namespace Setting

/-- A switch that is off. -/
def off : Setting := .flag false

/-- Whether a switch with this setting is on. -/
def isOn : Setting → Bool
  | .unset => false
  | .flag b => b
  | .number n => n != 0
  | .decimal _ digits _ => digits != 0
  | .text s => s != ""
  | .list items => !items.isEmpty
  | .record fields => !fields.isEmpty

/-- Whether a switch is on that stands at `preset` unless a choice was made. -/
def isOnOr (preset : Bool) : Setting → Bool
  | .unset => preset
  | s => s.isOn

end Setting

end Chip8

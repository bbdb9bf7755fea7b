import Chip8.CommandLine.Arguments
import Chip8.CommandLine.Token

/-!
# Understanding a command line

The tokens are taken from left to right, so the last of several values of an option
counts, and the first thing that is wrong, or the first call for help, ends it. The
flags of one word act together, after the rest of the word was found to be in order.
Words that have no place are put aside, and only at the end make the command line
one that cannot be understood, as does a missing file.

The first operand is the file. The mark `--` goes with it when it stands right before
or right behind it, and has no place anywhere else. As a value that is attached to an
option it stands for no value.
-/

namespace Chip8.CommandLine

/-- Why a command line leads to no launch. -/
inductive Stop
  /-- It calls for help. -/
  | help
  /-- It cannot be understood. -/
  | usage
  deriving DecidableEq

/-- The exit status that goes with a stop. -/
def Stop.status : Stop → Nat
  | .help => 0
  | .usage => 2

/-- What a command line has said so far. -/
structure Draft where
  /-- The file, once it was named. -/
  filename : Option String
  /-- How many instructions to execute. -/
  cycles : Choice Int
  /-- Whether to list the program instead of running it. -/
  list : Bool
  /-- Whether to trace. -/
  debug : Bool
  /-- Whether return addresses are kept in memory. -/
  overlayStack : Choice Bool
  /-- Whether block transfers take all registers. -/
  transferAll : Choice Bool
  /-- Whether there was a word that has no place. -/
  leftover : Bool
  deriving DecidableEq

namespace Draft

/-- Nothing was said yet. -/
def empty : Draft := ⟨none, .absent, false, false, .absent, .absent, false⟩

/-- A word that has no place. -/
def putAside (d : Draft) : Draft := { d with leftover := true }

/-- An operand: the file, unless it was named before. -/
def operand (d : Draft) (word : String) : Draft :=
  match d.filename with
  | none => { d with filename := some word }
  | some _ => d.putAside

/-- A flag. -/
def flag (d : Draft) : Flag → Except Stop Draft
  | .help => .error .help
  | .list => .ok { d with list := true }
  | .debug => .ok { d with debug := true }

/-- A switch is written as the number zero or one. -/
def switch? (value : List Char) : Option Bool :=
  match Text.integer? value with
  | some 0 => some false
  | some 1 => some true
  | _ => none

/-- What the text of a value chooses, if it can be read. -/
def choose {α : Type} (read : List Char → Option α) (value : List Char) :
    Except Stop (Choice α) :=
  if value = ['-', '-'] then .ok .blank
  else match read value with
    | some a => .ok (.value a)
    | none => .error .usage

/-- A value for an option. -/
def assign (d : Draft) (key : Key) (value : List Char) : Except Stop Draft :=
  match key with
  | .cycles => do return { d with cycles := ← choose Text.integer? value }
  | .overlayStack => do return { d with overlayStack := ← choose switch? value }
  | .transferAll => do return { d with transferAll := ← choose switch? value }

/-- Takes the tokens from left to right. -/
def consume (d : Draft) : List Token → Except Stop Draft
  | [] => .ok d
  | .operand word :: .terminator :: rest =>
    if d.filename.isNone then consume (d.operand word) rest
    else consume d.putAside rest
  | .operand word :: rest => consume (d.operand word) rest
  | .terminator :: .operand word :: rest =>
    if d.filename.isNone then consume (d.operand word) rest
    else consume d.putAside rest
  | .terminator :: rest => consume d.putAside rest
  | .malformed :: _ => .error .usage
  | .unknown :: rest => consume d.putAside rest
  | .options flags (.awaiting key) :: .operand word :: rest => do
    consume (← (← flags.foldlM flag d).assign key word.toList) rest
  | .options _ (.awaiting _) :: _ => .error .usage
  | .options flags (.valued key value) :: rest => do
    consume (← (← flags.foldlM flag d).assign key value) rest
  | .options flags .none :: rest => do consume (← flags.foldlM flag d) rest

/-- What the whole command line says. -/
def finish (d : Draft) : Except Stop Arguments :=
  match d.filename with
  | none => .error .usage
  | some filename =>
    if d.leftover then .error .usage
    else .ok ⟨filename, d.cycles, d.list, d.debug, d.overlayStack, d.transferAll⟩

end Draft

/-- Understands a command line. -/
def parse (words : List String) : Except Stop Arguments :=
  match Token.ofWords words with
  | none => .error .usage
  | some tokens => do (← Draft.empty.consume tokens).finish

end Chip8.CommandLine

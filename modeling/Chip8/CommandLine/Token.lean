import Chip8.Text.Numeral

/-!
# Tokens of a command line

Each word of a command line is first looked at by itself. It is an operand, or it
names options, or it is the mark `--` after which all words are operands.

* A word that does not begin with a dash is an operand, and so is a dash alone.
* `--name` names an option by its long name or by any beginning of it that fits no
  other; `--name=value` also gives its value.
* `-x` names an option by its letter. More characters may follow: after a flag they are
  letters of further options, after an option with a value they are its value. Right
  after the first letter an equals sign may stand before them.
* A word that fits none of this but reads as a negative number, or has a space in it,
  is an operand; any other names an option that does not exist.

A beginning that fits several long names is ambiguous, and then the command line
cannot be understood at all. A word that begins with an option and goes on in no way
that the option allows is an error where it stands.
-/

namespace Chip8.CommandLine

/-- An option that is given by naming it. -/
inductive Flag
  /-- Show how the program is used. -/
  | help
  /-- List the program instead of running it. -/
  | list
  /-- Trace instructions. -/
  | debug
  deriving DecidableEq

/-- An option that has a value. -/
inductive Key
  /-- How many instructions to execute. -/
  | cycles
  /-- Whether return addresses are kept in memory. -/
  | overlayStack
  /-- Whether block transfers take all registers. -/
  | transferAll
  deriving DecidableEq

/-- What the name of an option stands for. -/
inductive Switch
  /-- An option without a value. -/
  | flag (f : Flag)
  /-- An option with a value. -/
  | key (k : Key)
  deriving DecidableEq

/-- The long names of the options. None of them is the beginning of another. -/
def longNames : List (String × Switch) :=
  [("help", .flag .help), ("cycles", .key .cycles), ("list", .flag .list),
   ("stack_quirks", .key .overlayStack), ("block_quirks", .key .transferAll),
   ("debug", .flag .debug)]

/-- The option that a letter names. -/
def letter? : Char → Option Switch
  | 'h' => some (.flag .help)
  | 'n' => some (.key .cycles)
  | 'l' => some (.flag .list)
  | 'd' => some (.flag .debug)
  | _ => none

/-- What follows the flags of a word that names options. -/
inductive Tail
  /-- Nothing. -/
  | none
  /-- An option with its value. -/
  | valued (key : Key) (value : List Char)
  /-- An option whose value must be the next word. -/
  | awaiting (key : Key)
  deriving DecidableEq

/-- One word of a command line. -/
inductive Token
  /-- A word that names no option. -/
  | operand (word : String)
  /-- The mark after which all words are operands. -/
  | terminator
  /-- Options: some flags, and what follows them in the same word. -/
  | options (flags : List Flag) (tail : Tail)
  /-- A word that names an option that does not exist. -/
  | unknown
  /-- A word that begins with an option and cannot be read to its end. -/
  | malformed
  deriving DecidableEq

/-- Reads letters of options that stand together, as the flags and what follows them. An
option with a value takes all that is left. There is no reading if a letter names no
option. -/
def letters : List Char → Option (List Flag × Tail)
  | [] => some ([], .none)
  | c :: rest => do
    match ← letter? c with
    | .key k => return ([], if rest.isEmpty then .awaiting k else .valued k rest)
    | .flag f =>
      let (flags, tail) ← letters rest
      return (f :: flags, tail)

/-- Reads all that stands after a single dash. An equals sign right after the first letter
is passed over, and something must follow it. -/
def letterWord : List Char → Option (List Flag × Tail)
  | [_, '='] => none
  | c :: '=' :: rest => letters (c :: rest)
  | s => letters s

/-- The options whose long name begins with the given letters. -/
def longMatches (beginning : List Char) : List Switch :=
  longNames.filterMap fun (name, switch) =>
    if beginning.isPrefixOf name.toList then some switch else none

/-- An option that was named in full, with its value if it was given one in the same word. -/
def Switch.token : Switch → Option (List Char) → Token
  | .flag f, none => .options [f] .none
  | .flag _, some _ => .malformed
  | .key k, none => .options [] (.awaiting k)
  | .key k, some value => .options [] (.valued k value)

/-- A word that begins with a dash and names no option that exists. -/
def otherwise (word : String) : Token :=
  if Text.isDecimal (word.toList.drop 1) || word.toList.contains ' ' then .operand word
  else .unknown

/-- The value after the first equals sign. -/
def attached (s : List Char) : Option (List Char) :=
  match s.dropWhile (· != '=') with
  | [] => none
  | _ :: value => some value

/-- Reads one word that is not the mark `--`; `none` if it is ambiguous. -/
def Token.ofWord (word : String) : Option Token :=
  match word.toList with
  | '-' :: '-' :: long =>
    match longMatches (long.takeWhile (· != '=')) with
    | [] => some (otherwise word)
    | [switch] => some (switch.token (attached long))
    | _ => none
  | '-' :: c :: rest =>
    match letter? c with
    | none => some (otherwise word)
    | some _ =>
      match letterWord (c :: rest) with
      | none => some .malformed
      | some (flags, tail) => some (.options flags tail)
  | _ => some (.operand word)

/-- Reads all words; `none` if one of them is ambiguous. -/
def Token.ofWords : List String → Option (List Token)
  | [] => some []
  | word :: rest =>
    if word = "--" then some (.terminator :: rest.map .operand)
    else do return (← Token.ofWord word) :: (← Token.ofWords rest)

end Chip8.CommandLine

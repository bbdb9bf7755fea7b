import Chip8.Text.Blank
import Chip8.Text.DecimalDigit

/-!
# Reading an integer

An integer is written with decimal digits of any script, perhaps a sign right before
them, and perhaps white space around the whole. Between two digits a single
underscore may stand to group them. A numeral of more than `maxDigits` digits is
refused, leading zeros counted.
-/

namespace Chip8.Text

/-- The most digits that a numeral may have. -/
def maxDigits : Nat := 4300

/-- Reads digits with single underscores between them; there must be at least one digit. -/
def digits? : List Char → Option (List Nat)
  | [] => none
  | [c] => (digitValue? c).map ([·])
  | c :: '_' :: rest => do return (← digitValue? c) :: (← digits? rest)
  | c :: rest => do return (← digitValue? c) :: (← digits? rest)

/-- The number that digits make, the most significant first. -/
def ofDigits (ds : List Nat) : Nat := ds.foldl (fun n d => 10 * n + d) 0

/-- Reads a number without sign. -/
def natural? (s : List Char) : Option Nat := do
  let ds ← digits? s
  if ds.length ≤ maxDigits then some (ofDigits ds) else none

/-- Reads a number with or without sign. -/
def signed? : List Char → Option Int
  | '-' :: s => (natural? s).map fun n => -(n : Int)
  | '+' :: s => (natural? s).map Int.ofNat
  | s => (natural? s).map Int.ofNat

/-- Reads an integer that may have white space around it. -/
def integer? (s : List Char) : Option Int :=
  let s := s.dropWhile isBlank
  let body := s.takeWhile (!isBlank ·)
  let rest := s.dropWhile (!isBlank ·)
  if rest.all isBlank then signed? body else none

example : integer? " -1_0 ".toList = some (-10) ∧ integer? "1__0".toList = none := by decide

/-- Whether the text after a minus sign is a plain decimal number, with a point in it or
without. A line end after it is passed over. -/
def isDecimal (s : List Char) : Bool :=
  let s := if s.getLast? = some '\n' then s.dropLast else s
  match s.dropWhile isDigit with
  | [] => !s.isEmpty
  | c :: fraction => c == '.' && !fraction.isEmpty && fraction.all isDigit

end Chip8.Text

import Chip8.Launch.Options
import Chip8.Machine.Basic

/-!
# A session of the program

A session begins with the banner. It then either lists the program or runs it from
`programStart` on the machine of the usual size, and ends with an exit status: zero if
the run came to its limit, one if a fault stopped it. The crash report is the
machine's own and has been made by then.

The options are looked at in a fixed order, and the first one that is missing ends
the session: the two switches of the machine, the file, which is read at once, the
switch of the journal, the listing, and the number of instructions, which a listing does
not need. A program that does not fit into memory ends the session before it runs.
-/

namespace Chip8

/-- The first line of a session. -/
def banner : String :=
  signature ++ "Copyright (C) 2022 Gregory Maynard-Hoare, "
    ++ "licensed under GNU Affero General Public License v3.0"

/-- Why a file could not be read. -/
inductive FileError
  /-- There is no such file. -/
  | missing
  /-- It is a directory. -/
  | directory
  deriving DecidableEq

/-- Why a session ended without an exit status. -/
inductive SessionError
  /-- An option was not given. -/
  | missingOption (name : OptionName)
  /-- The program could not be read. -/
  | file (e : FileError)
  /-- The program could not be loaded. -/
  | load (fault : Fault)
  deriving DecidableEq

/-- What the caller is told about the error, if the program has words of its own for it. -/
def SessionError.message? : SessionError → Option String
  | .missingOption name => some ("'" ++ name.key ++ "'")
  | .file _ => none
  | .load fault => some fault.message

/-- What a session is about to do once its options were read. -/
inductive Plan
  /-- List a program. -/
  | list (program : List UInt8)
  /-- Run a machine. -/
  | run (machine : Machine) (limit : Limit)

namespace Plan

/-- The machine that runs a program, unless it does not fit. -/
def load (program : List UInt8) (overlayStack transferAll : Bool) (tracing : Setting) :
    Except Fault Machine :=
  match Memory.writeBlock programStart program (Memory.blank memorySize) with
  | .error fault _ => .error fault
  | .ok _ memory =>
    let stack := if overlayStack then .overlay else CallStack.empty CallStack.usualDepth
    .ok (Machine.build memory stack (Screen.ofAnswers []) transferAll tracing)

/-- An option that must have been given. -/
def require {α : Type} (name : OptionName) : Option α → Except SessionError α
  | some a => .ok a
  | none => .error (.missingOption name)

/-- Reads the options in order, and the file that they name. -/
def ofOptions (files : String → Except FileError (List UInt8)) (o : Options) :
    Except SessionError Plan := do
  let overlayStack ← require .overlayStack o.overlayStack
  let transferAll ← require .transferAll o.transferAll
  let filename ← require .filename o.filename
  let program ← (files filename).mapError .file
  let debug ← require .debug o.debug
  let list ← require .list o.list
  if list.isOn then
    return .list program
  else
    let machine ← (load program overlayStack.isOn (transferAll.isOnOr true) debug).mapError .load
    let cycles ← require .cycles o.cycles
    return .run machine cycles

end Plan

/-- How a session ended. -/
inductive Ending
  /-- With an exit status. -/
  | exited (status : Nat)
  /-- With an error that is the caller's. -/
  | failed (e : SessionError)
  /-- Not at all: the program runs without a limit, and was followed for so many steps only. -/
  | unfinished
  deriving DecidableEq

/-- A session: what was reported after the banner, and how it ended. -/
structure Session where
  /-- The reports, in order. -/
  entries : List Entry
  /-- How it ended. -/
  ending : Ending

namespace Session

/-- All that a session writes. -/
def output (s : Session) : String := banner ++ "\n" ++ String.join (s.entries.map Entry.line)

/-- The session that carries out a plan. -/
def ofPlan (fuel : Nat) : Plan → Session
  | .list program => ⟨Entry.listing programStart program, .exited 0⟩
  | .run machine limit =>
    match Machine.run (some programStart) limit.count? fuel machine with
    | .ok (.finished _) m => ⟨m.journal.entries.toList, .exited 0⟩
    | .ok .unfinished m => ⟨m.journal.entries.toList, .unfinished⟩
    | .error _ m => ⟨m.journal.entries.toList, .exited 1⟩

/-- A whole session. A run without a limit is followed for `fuel` steps. -/
def launch (files : String → Except FileError (List UInt8)) (fuel : Nat) (o : Options) :
    Session :=
  match Plan.ofOptions files o with
  | .error e => ⟨[], .failed e⟩
  | .ok plan => ofPlan fuel plan

end Session

end Chip8

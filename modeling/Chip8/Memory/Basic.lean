import Chip8.Exec
import Chip8.Word

/-!
# Memory

A bank of bytes, addressed from zero. Its size is set once and may be any integer: a
bank whose size is not positive holds no byte at all. An address is any integer too,
and every access first checks that the addresses it needs are in the bank. Nothing
wraps: an access outside is the fault `outOfBounds`, which names the first address
that was found to be missing, and so depends on the order of the checks.

`Memory.byteAt` is the view of a bank that every other definition is read through.

The order in which addresses are checked:

* a block, read or written: its first address, then its last one if it has any byte;
* a word that is read: its first address, then its second;
* a word that is written: its second address, then its first.
-/

namespace Chip8

/-- A bank of bytes. -/
structure Memory where
  /-- How many bytes were asked for, which may be a negative number. -/
  size : Int
  /-- The bytes, from address zero. -/
  cells : Array UInt8
  /-- There are as many bytes as were asked for, and none if that was below zero. -/
  size_cells : cells.size = size.toNat

namespace Memory

/-- A bank of zeros. -/
def blank (size : Int) : Memory := ⟨size, Array.replicate size.toNat 0, Array.size_replicate⟩

/-- The last address of a bank; `-1` or less when there is none. -/
def top (m : Memory) : Int := m.size - 1

/-- The addresses of a bank run from zero to its top. -/
instance : Membership Int Memory := ⟨fun m a => 0 ≤ a ∧ a ≤ m.top⟩

instance (a : Int) (m : Memory) : Decidable (a ∈ m) := inferInstanceAs (Decidable (_ ∧ _))

/-- The byte at an address, zero outside the bank. -/
def byteAt (m : Memory) (a : Int) : UInt8 :=
  if 0 ≤ a then m.cells[a.toNat]?.getD 0 else 0

/-- The bank with the byte at one address replaced; the same bank if the address is not in it. -/
def setByte (m : Memory) (a : Int) (b : UInt8) : Memory :=
  if 0 ≤ a then
    ⟨m.size, m.cells.setIfInBounds a.toNat b, (Array.size_setIfInBounds).trans m.size_cells⟩
  else m

/-- The bank with a block laid over it, from address `a` up. -/
def setBlock (m : Memory) (a : Int) : List UInt8 → Memory
  | [] => m
  | b :: rest => (m.setByte a b).setBlock (a + 1) rest

/-- The bytes of the addresses from `first` up to and without `stop`. A `stop` below
zero is counted from the end of the bank, and no byte is taken twice or from outside. -/
def slice (m : Memory) (first stop : Int) : List UInt8 :=
  let stop := if stop < 0 then stop + m.cells.size else stop
  (m.cells.extract first.toNat stop.toNat).toList

/-! ### Accesses -/

/-- Refuses an address that is not in the bank. -/
def check (a : Int) : Exec Memory Unit := do
  let m ← get
  if a ∈ m then pure () else throw (.outOfBounds a m.top)

/-- Reads a byte. -/
def read (a : Int) : Exec Memory UInt8 := do
  check a
  return (← get).byteAt a

/-- Writes the low eight bits of `b`. -/
def write (a b : Int) : Exec Memory Unit := do
  check a
  modify (·.setByte a (Word.low b))

/-- Writes bytes from address `a` up one after the other, each with its own check, so
those before a fault are written. -/
def writeEach (a : Int) : List Int → Exec Memory Unit
  | [] => pure ()
  | b :: rest => do
    write a b
    writeEach (a + 1) rest

/-- Reads the block of `size` bytes at `a`. A size that is not positive asks for the
slice from `a` to `a + size`, of which only the first address is checked. -/
def readBlock (a size : Int) : Exec Memory (List UInt8) := do
  check a
  if 0 < size then check (a + size - 1)
  return (← get).slice a (a + size)

/-- Writes a block from address `a` up. The address of an empty block is checked as well. -/
def writeBlock (a : Int) (block : List UInt8) : Exec Memory Unit := do
  check a
  if block ≠ [] then check (a + block.length - 1)
  modify (·.setBlock a block)

/-- Reads a word, the high byte first. -/
def readWord (a : Int) : Exec Memory UInt16 := do
  let high ← read a
  let low ← read (a + 1)
  return Word.join high low

/-- Writes the low sixteen bits of `w`, the high byte first. -/
def writeWord (a w : Int) : Exec Memory Unit := do
  check (a + 1)
  write a (Word.high w).toNat
  write (a + 1) (Word.low w).toNat

/-- Copies a block as it was before the copy began, so source and target may overlap. -/
def copyBlock (a size target : Int) : Exec Memory Unit := do
  writeBlock target (← readBlock a size)

end Memory

end Chip8

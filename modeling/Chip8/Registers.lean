import Chip8.Exec
import Chip8.Word

/-!
# Registers and pointers

The sixteen registers V0 to VF hold a byte each, the index register I and the program
counter PC a word, the stack pointer SP a byte. Each wraps at its width. Before a
program starts they are all zero, except that PC stands at `programStart`.

An instruction names a register by a `Nibble` and so cannot miss one. A caller from
outside names it by an integer, which is checked.
-/

namespace Chip8

/-- Where a program is loaded and where it starts. -/
def programStart : Int := 0x200

/-- The registers and pointers of the machine. -/
structure Registers where
  /-- The registers V0 to VF. -/
  v : Vector UInt8 16
  /-- The index register. -/
  i : UInt16
  /-- The program counter. -/
  pc : UInt16
  /-- The stack pointer. -/
  sp : UInt8

namespace Registers

/-- The registers before a program starts. -/
def initial : Registers := ⟨Vector.replicate 16 0, 0, Word.ofInt programStart, 0⟩

/-- The value of a register. -/
def get (r : Registers) (x : Nibble) : UInt8 := r.v[x]

/-- The registers with the value of one replaced. -/
def set (r : Registers) (x : Nibble) (b : UInt8) : Registers := { r with v := r.v.set x b }

/-- The registers with I at the low sixteen bits of an integer. -/
def setI (r : Registers) (value : Int) : Registers := { r with i := Word.ofInt value }

/-- The registers with PC at the low sixteen bits of an integer. -/
def setPC (r : Registers) (value : Int) : Registers := { r with pc := Word.ofInt value }

/-- The registers with SP at the low eight bits of an integer. -/
def setSP (r : Registers) (value : Int) : Registers := { r with sp := Word.low value }

/-- PC goes on to the next instruction. -/
def advance (r : Registers) : Registers := { r with pc := r.pc + 2 }

/-- PC goes on to the next instruction, and past it if `b` holds. -/
def skipIf (b : Bool) (r : Registers) : Registers := if b then r.advance.advance else r.advance

/-- A register is read back with the value that it was set to, and no other has changed. -/
theorem get_set (r : Registers) (x y : Nibble) (b : UInt8) :
    (r.set x b).get y = if y = x then b else r.get y := by
  simp only [get, set, Fin.getElem_fin, Vector.getElem_set, Fin.val_inj]
  by_cases h : y = x
  · simp [h]
  · simp [h, Ne.symm h]

/-! ### Reading after writing -/

section

variable (r : Registers) (x y : Nibble) (b : UInt8) (value : Int)

@[simp] theorem i_set : (r.set x b).i = r.i := rfl

@[simp] theorem pc_set : (r.set x b).pc = r.pc := rfl

@[simp] theorem sp_set : (r.set x b).sp = r.sp := rfl

@[simp] theorem get_setI : (r.setI value).get y = r.get y := rfl

@[simp] theorem i_setI : (r.setI value).i = Word.ofInt value := rfl

@[simp] theorem pc_setI : (r.setI value).pc = r.pc := rfl

@[simp] theorem sp_setI : (r.setI value).sp = r.sp := rfl

@[simp] theorem get_setPC : (r.setPC value).get y = r.get y := rfl

@[simp] theorem i_setPC : (r.setPC value).i = r.i := rfl

@[simp] theorem pc_setPC : (r.setPC value).pc = Word.ofInt value := rfl

@[simp] theorem sp_setPC : (r.setPC value).sp = r.sp := rfl

@[simp] theorem get_setSP : (r.setSP value).get y = r.get y := rfl

@[simp] theorem i_setSP : (r.setSP value).i = r.i := rfl

@[simp] theorem pc_setSP : (r.setSP value).pc = r.pc := rfl

@[simp] theorem sp_setSP : (r.setSP value).sp = Word.low value := rfl

/-- Going on is moving PC by two. -/
theorem advance_eq : r.advance = r.setPC (r.pc.toNat + 2) := by
  have h : r.pc + 2 = Word.ofInt (r.pc.toNat + 2) := by
    rw [← UInt16.toNat_inj, UInt16.toNat_add]
    have := Word.toNat_ofInt (r.pc.toNat + 2)
    simp only [UInt16.reduceToNat]
    omega
  rw [advance, setPC, h]

/-- A skip moves PC by four where its condition holds. -/
theorem skipIf_eq (c : Bool) :
    r.skipIf c = r.setPC (if c then r.pc.toNat + 4 else r.pc.toNat + 2) := by
  cases c with
  | false => exact advance_eq r
  | true =>
    have h : Word.ofInt ((Word.ofInt (r.pc.toNat + 2)).toNat + 2) = Word.ofInt (r.pc.toNat + 4) := by
      rw [← UInt16.toNat_inj]
      have := Word.toNat_ofInt (r.pc.toNat + 2)
      have := Word.toNat_ofInt ((Word.ofInt (r.pc.toNat + 2)).toNat + 2)
      have := Word.toNat_ofInt (r.pc.toNat + 4)
      omega
    rw [skipIf, if_pos rfl, if_pos rfl, advance_eq r.advance, advance_eq r]
    exact congrArg (fun pc => { r with pc := pc }) h

end

/-! ### Registers named by an integer -/

/-- The register of this number, if there is one. -/
def find (index : Int) : Exec Registers Nibble :=
  if h : 0 ≤ index ∧ index < 16 then pure ⟨index.toNat, by omega⟩
  else throw (.noRegister index)

/-- Reads the register of this number. -/
def read (index : Int) : Exec Registers UInt8 := do
  let x ← find index
  return (← MonadState.get).get x

/-- Writes the low eight bits of `b` to the register of this number. -/
def write (index b : Int) : Exec Registers Unit := do
  let x ← find index
  modify (·.set x (Word.low b))

/-- If there is a register of this number, it takes the low byte. -/
theorem write_of_lt {r : Registers} {index byte : Int} (h : 0 ≤ index ∧ index < 16) :
    write index byte r = .ok () (r.set ⟨index.toNat, by omega⟩ (Word.low byte)) := by
  rw [write, Exec.bind_apply, find, dif_pos h]
  rfl

theorem write_of_not_lt {r : Registers} {index byte : Int} (h : ¬(0 ≤ index ∧ index < 16)) :
    write index byte r = .error (.noRegister index) r := by
  rw [write, Exec.bind_apply, find, dif_neg h]
  rfl

end Registers

end Chip8

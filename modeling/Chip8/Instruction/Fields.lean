import Chip8.Word

/-!
# Operand fields

An instruction word `0xABCD` is read by its nibbles. `A` chooses the family of the
instruction; the others are registers, a byte, an address or a small number, and they
overlap, so which of them mean something depends on the instruction. The fields are
those of the low sixteen bits, whatever integer they are taken from.
-/

namespace Chip8

/-- The operand fields of an instruction word `0xABCD`. -/
structure Fields where
  /-- The first nibble `A`. -/
  op : Nibble
  /-- The second nibble `B`, a register. -/
  x : Nibble
  /-- The third nibble `C`, a register. -/
  y : Nibble
  /-- The last nibble `D`. -/
  n : Nibble
  /-- The low byte `CD`. -/
  kk : UInt8
  /-- The low twelve bits `BCD`, an address. -/
  nnn : Fin 4096
  deriving DecidableEq

/-- Reads the fields from the low sixteen bits of an integer. -/
def Fields.ofWord (w : Int) : Fields where
  op := ⟨(w / 4096 % 16).toNat, by omega⟩
  x := ⟨(w / 256 % 16).toNat, by omega⟩
  y := ⟨(w / 16 % 16).toNat, by omega⟩
  n := ⟨(w % 16).toNat, by omega⟩
  kk := Word.low w
  nnn := ⟨(w % 4096).toNat, by omega⟩

namespace Fields

variable (w : Int)

theorem val_op : ((ofWord w).op.val : Int) = w / 4096 % 16 := by
  simp only [ofWord]
  omega

theorem val_x : ((ofWord w).x.val : Int) = w / 256 % 16 := by
  simp only [ofWord]
  omega

theorem val_y : ((ofWord w).y.val : Int) = w / 16 % 16 := by
  simp only [ofWord]
  omega

theorem val_n : ((ofWord w).n.val : Int) = w % 16 := by
  simp only [ofWord]
  omega

theorem toNat_kk : ((ofWord w).kk.toNat : Int) = w % 256 := Word.toNat_low w

theorem val_nnn : ((ofWord w).nnn.val : Int) = w % 4096 := by
  simp only [ofWord]
  omega

end Fields

end Chip8

/-!
# Words and bytes

An instruction or a saved address is a word of sixteen bits kept in memory as two
bytes, the high one first. The machine also meets integers that are no words: a
return address may lie one past the last word, and a caller may ask for any opcode.
So everything here starts from an `Int` and reads its low sixteen bits in two's
complement: the remainder by `65536` that is not negative.

* `toNat_ofInt`, `toNat_high` and `toNat_low` say which bits are read.
* `join_high_low` and `split_join`: splitting and joining undo each other.
-/

namespace Chip8

/-- One of the sixteen values of four bits: a register's number, or the height of a sprite. -/
abbrev Nibble := Fin 16

namespace Word

/-- The word that an integer is in its low sixteen bits. -/
def ofInt (w : Int) : UInt16 := UInt16.ofNat (w % 65536).toNat

/-- The high byte of a word, bits 8 to 15. -/
def high (w : Int) : UInt8 := UInt8.ofNat (w / 256 % 256).toNat

/-- The low byte of a word, bits 0 to 7. -/
def low (w : Int) : UInt8 := UInt8.ofNat (w % 256).toNat

/-- The two bytes of a word, the high one first. -/
def split (w : Int) : UInt8 × UInt8 := (high w, low w)

/-- The word of two bytes, the high one first. -/
def join (high low : UInt8) : UInt16 := UInt16.ofNat (high.toNat * 256 + low.toNat)

/-- Why two integers are not the bytes of a word. -/
inductive JoinError
  /-- One of them is below zero or above 255. -/
  | notBytes
  deriving DecidableEq

/-- What a caller is told when two integers cannot be joined. -/
def JoinError.message : JoinError → String
  | .notBytes => "bytes must be in range(0, 256)"

/-- An integer that is a byte as it stands. -/
def IsByte (b : Int) : Prop := 0 ≤ b ∧ b ≤ 255

instance (b : Int) : Decidable (IsByte b) := inferInstanceAs (Decidable (_ ∧ _))

/-- The word of two integers that are bytes as they stand; nothing is cut off to make them so. -/
def joinChecked (high low : Int) : Except JoinError UInt16 :=
  if IsByte high ∧ IsByte low then .ok (join (Word.low high) (Word.low low))
  else .error .notBytes

/-! ### Which bits are read -/

theorem toNat_ofInt (w : Int) : ((ofInt w).toNat : Int) = w % 65536 := by
  simp only [ofInt, UInt16.toNat_ofNat']
  omega

theorem toNat_high (w : Int) : ((high w).toNat : Int) = w / 256 % 256 := by
  simp only [high, UInt8.toNat_ofNat']
  omega

theorem toNat_low (w : Int) : ((low w).toNat : Int) = w % 256 := by
  simp only [low, UInt8.toNat_ofNat']
  omega

theorem toNat_join (h l : UInt8) : (join h l).toNat = h.toNat * 256 + l.toNat := by
  have := h.toNat_lt
  have := l.toNat_lt
  simp only [join, UInt16.toNat_ofNat']
  omega

/-! ### Splitting and joining -/

/-- Joining the two bytes of an integer gives its low sixteen bits. -/
theorem join_high_low (w : Int) : join (high w) (low w) = ofInt w := by
  rw [← UInt16.toNat_inj]
  have := toNat_high w
  have := toNat_low w
  have := toNat_ofInt w
  rw [toNat_join]
  omega

/-- A word that was joined splits into the bytes it was made of. -/
theorem split_join (h l : UInt8) : split (join h l).toNat = (h, l) := by
  have := h.toNat_lt
  have := l.toNat_lt
  have hh : high (join h l).toNat = h := by
    rw [← UInt8.toNat_inj]
    have := toNat_high (join h l).toNat
    rw [toNat_join] at this ⊢
    omega
  have hl : low (join h l).toNat = l := by
    rw [← UInt8.toNat_inj]
    have := toNat_low (join h l).toNat
    rw [toNat_join] at this ⊢
    omega
  rw [split, hh, hl]

/-- A byte is read back from the number that it is. -/
@[simp] theorem low_toNat (b : UInt8) : low b.toNat = b := by
  have := b.toNat_lt
  rw [← UInt8.toNat_inj]
  have := toNat_low b.toNat
  omega

/-- A word is read back from the number that it is. -/
@[simp] theorem ofInt_toNat (w : UInt16) : ofInt w.toNat = w := by
  have := w.toNat_lt
  rw [← UInt16.toNat_inj]
  have := toNat_ofInt w.toNat
  omega

end Word

end Chip8

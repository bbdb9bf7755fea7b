import Chip8.Proofs.Decoding
import Mathlib.Algebra.Group.Nat.Defs

/-!
# How instructions are written

A trace shows an instruction by its mnemonic. What it shows of the operands are digits of the word that
was fetched: a register is one hexadecimal digit, a byte two, an address three, and the rows of a sprite
one. `hexDigits` gives the digits of a number in a fixed number of places, and `textFrom` writes an
instruction with the fields of a word for its operands.

* `hex_eq_hexDigits` and `hex_eq_hex_succ`: a number in hexadecimal is its digits.
* `Denotes.operandsFrom`: the operands of an instruction are fields of the word that it is read from.
* `mnemonic_eq_textFrom`: so its mnemonic is written with these fields.
-/

namespace Chip8

namespace Text

/-- The last `width` digits of a number in base sixteen. -/
def hexDigits : Nat → Nat → String
  | 0, _ => ""
  | width + 1, n => (hexDigits width (n / 16)).push (Nat.digitChar (n % 16))

variable {width n : Nat}

/-- A number without a sign is its digits with zeros in front. -/
theorem toList_hex (width n : Nat) :
    (hex width n).toList = List.replicate (width - (Nat.toDigits 16 n).length) '0' ++ Nat.toDigits 16 n := by
  have hsign : sign (n : Int) = [] := if_neg (by omega)
  simp [hex, hsign]

theorem toList_hexDigits_zero (width : Nat) : (hexDigits width 0).toList = List.replicate width '0' := by
  induction width with
  | zero => rfl
  | succ width ih =>
    rw [hexDigits, String.toList_push, Nat.zero_div, ih, List.replicate_succ']
    rfl

/-- **A number that fits is written as its digits.** -/
theorem hex_eq_hexDigits (hpos : 0 < width) (h : n < 16 ^ width) : hex width n = hexDigits width n := by
  apply String.toList_injective
  rw [toList_hex]
  induction width generalizing n with
  | zero => exact absurd hpos (Nat.lt_irrefl 0)
  | succ width ih =>
    rw [hexDigits, String.toList_push]
    by_cases hsmall : n < 16
    · rw [Nat.toDigits_of_lt_base hsmall, Nat.div_eq_of_lt hsmall, Nat.mod_eq_of_lt hsmall, toList_hexDigits_zero]
      simp
    · have hquotient : n / 16 < 16 ^ width := by
        rw [Nat.pow_succ] at h
        omega
      have hwidth : 0 < width := by
        apply Nat.pos_of_ne_zero
        rintro rfl
        omega
      rw [← ih hwidth hquotient, Nat.toDigits_of_base_le (by decide) (Nat.le_of_not_lt hsmall), List.length_append,
        List.length_singleton, Nat.add_sub_add_right, List.append_assoc]

/-- A number that needs another place takes it. -/
theorem hex_eq_hex_succ (hpos : 0 < width) (h : 16 ^ width ≤ n) : hex width n = hex (width + 1) n := by
  have hlength : width < (Nat.toDigits 16 n).length := by
    rw [← Nat.not_le, Nat.length_toDigits_le_iff (by decide) hpos]
    omega
  apply String.toList_injective
  rw [toList_hex, toList_hex, Nat.sub_eq_zero_of_le (Nat.le_of_lt hlength), Nat.sub_eq_zero_of_le hlength]

theorem hexByte_eq_hexDigits (b : UInt8) : hexByte b = hexDigits 2 b.toNat :=
  hex_eq_hexDigits (by decide) b.toNat_lt

end Text

namespace Instruction

open Text

variable {f : Fields} {i : Instruction} {w : Int}

/-- The operands of an instruction are the fields of the word that it was read from. -/
def OperandsFrom (f : Fields) : Instruction → Prop
  | .clear | .ret => True
  | .jump a | .call a | .index a => a = f.nnn
  | .skipEq x b | .skipNe x b | .set x b | .add x b => x = f.x ∧ b = f.kk
  | .skipSame x y | .move x y | .or x y => x = f.x ∧ y = f.y
  | .draw x y n => x = f.x ∧ y = f.y ∧ n = f.n
  | .decimal x | .store x | .load x => x = f.x

theorem Denotes.operandsFrom (h : Denotes w i) : i.OperandsFrom (Fields.ofWord w) := by
  rw [denotes_iff] at h
  cases i with
  | clear | ret => exact trivial
  | jump | call | index => exact h.2.symm
  | skipEq | skipNe | set | add => exact ⟨h.2.1.symm, h.2.2.symm⟩
  | skipSame | move | or => exact ⟨h.2.1.symm, h.2.2.1.symm⟩
  | draw => exact ⟨h.2.1.symm, h.2.2.1.symm, h.2.2.2.symm⟩
  | decimal | store | load => exact h.2.1.symm

/-- How an instruction of this kind is written if its operands are these fields. -/
def textFrom (f : Fields) : Instruction → String
  | .clear => "CLS"
  | .ret => "RET"
  | .jump _ => "JP 0x" ++ hexDigits 3 f.nnn
  | .call _ => "CALL 0x" ++ hexDigits 3 f.nnn
  | .skipEq _ _ => "SE V" ++ hexDigits 1 f.x ++ ", 0x" ++ hexDigits 2 f.kk.toNat
  | .skipNe _ _ => "SNE V" ++ hexDigits 1 f.x ++ ", 0x" ++ hexDigits 2 f.kk.toNat
  | .skipSame _ _ => "SE V" ++ hexDigits 1 f.x ++ ", V" ++ hexDigits 1 f.y
  | .set _ _ => "LD V" ++ hexDigits 1 f.x ++ ", 0x" ++ hexDigits 2 f.kk.toNat
  | .add _ _ => "ADD V" ++ hexDigits 1 f.x ++ ", 0x" ++ hexDigits 2 f.kk.toNat
  | .move _ _ => "LD V" ++ hexDigits 1 f.x ++ ", V" ++ hexDigits 1 f.y
  | .or _ _ => "OR V" ++ hexDigits 1 f.x ++ ", V" ++ hexDigits 1 f.y
  | .index _ => "LD I, 0x" ++ hexDigits 3 f.nnn
  | .draw _ _ _ => "DRW V" ++ hexDigits 1 f.x ++ ", V" ++ hexDigits 1 f.y ++ ", 0x" ++ hexDigits 1 f.n
  | .decimal _ => "LD B, V" ++ hexDigits 1 f.x
  | .store _ => "LD [I], V" ++ hexDigits 1 f.x
  | .load _ => "LD V" ++ hexDigits 1 f.x ++ ", [I]"

theorem toList_registerName (x : Nibble) : (registerName x).toList = 'V' :: (hexDigits 1 x).toList := by
  rw [registerName, hex_eq_hexDigits (by decide) x.isLt, String.toList_append]
  rfl

theorem toList_addressText (a : Fin 4096) : (addressText a).toList = '0' :: 'x' :: (hexDigits 3 a).toList := by
  rw [addressText, hex_eq_hexDigits (by decide) a.isLt, String.toList_append]
  rfl

theorem toList_byteText (b : UInt8) : (byteText b).toList = '0' :: 'x' :: (hexDigits 2 b.toNat).toList := by
  rw [byteText, hexByte_eq_hexDigits, String.toList_append]
  rfl

/-- **A mnemonic shows the fields of the word.** -/
theorem mnemonic_eq_textFrom (h : i.OperandsFrom f) : i.mnemonic = i.textFrom f := by
  apply String.toList_injective
  cases i with
  | clear | ret => rfl
  | jump | call | index =>
    subst h
    simp [mnemonic, textFrom, toList_addressText]
  | skipEq | skipNe | set | add =>
    obtain ⟨rfl, rfl⟩ := h
    simp [mnemonic, textFrom, toList_registerName, toList_byteText]
  | skipSame | move | or =>
    obtain ⟨rfl, rfl⟩ := h
    simp [mnemonic, textFrom, toList_registerName]
  | draw =>
    obtain ⟨rfl, rfl, rfl⟩ := h
    have hrows : hex 1 f.n.val = hexDigits 1 f.n := hex_eq_hexDigits (by decide) f.n.isLt
    simp [mnemonic, textFrom, toList_registerName, hrows]
  | decimal | store | load =>
    subst h
    simp [mnemonic, textFrom, toList_registerName]

example : textFrom (Fields.ofWord 0xD12F) (.draw 1 2 0xF) = "DRW V1, V2, 0xf" := by decide

end Instruction

end Chip8

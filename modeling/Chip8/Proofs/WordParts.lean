import Chip8.Instruction.Fields

/-!
# The parts of a word

An integer of any size and sign is cut in two ways: into the two bytes of its low sixteen bits, and
into operand fields that overlap. Nothing of these bits is lost in either way. The two bytes are joined
to the word again; two integers are joined only if they are bytes, and the word is cut into them again.
The fields overlap so that no others fit the same word. So integers have the same fields exactly if they
have the same low sixteen bits.

* `joinChecked_eq_error_iff` and `joinChecked_split`: when joining is refused, and what it gives back.
* `eq_ofWord_iff`: the equations that single out the fields of a word.
* `words_decompose`: both cuts, for all integers.
-/

namespace Chip8

namespace Word

variable {a b w : Int}

theorem joinChecked_of_isByte (ha : IsByte a) (hb : IsByte b) :
    joinChecked a b = .ok (join (low a) (low b)) := if_pos ⟨ha, hb⟩

/-- Two integers are joined unless one of them is no byte. -/
theorem joinChecked_eq_error_iff : joinChecked a b = .error .notBytes ↔ ¬(IsByte a ∧ IsByte b) := by
  unfold joinChecked
  split
  case isTrue h => exact ⟨nofun, fun hnot => absurd h hnot⟩
  case isFalse h => exact ⟨fun _ => h, fun _ => rfl⟩

theorem isByte_toNat (byte : UInt8) : IsByte byte.toNat := by
  have := byte.toNat_lt
  constructor <;> omega

/-- A byte keeps its value when it is stored. -/
theorem toNat_low_of_isByte (hb : IsByte b) : ((low b).toNat : Int) = b := by
  obtain ⟨h0, h1⟩ := hb
  rw [toNat_low]
  omega

/-- The two bytes of an integer are joined to its low sixteen bits. -/
theorem joinChecked_split (w : Int) : joinChecked (high w).toNat (low w).toNat = .ok (ofInt w) := by
  rw [joinChecked_of_isByte (isByte_toNat _) (isByte_toNat _), low_toNat, low_toNat, join_high_low]

end Word

namespace Fields

variable {f : Fields} {v w : Int}

/-- **The fields of a word are those that overlap in this way and make up its low sixteen bits.** -/
theorem eq_ofWord_iff :
    f = ofWord w ↔
      (f.op.val : Int) * 4096 + f.nnn.val = w % 65536 ∧
      (f.nnn.val : Int) = f.x.val * 256 + f.kk.toNat ∧
      (f.kk.toNat : Int) = f.y.val * 16 + f.n.val := by
  have hop := val_op w
  have hx := val_x w
  have hy := val_y w
  have hn := val_n w
  have hkk := toNat_kk w
  have hnnn := val_nnn w
  constructor
  · rintro rfl
    omega
  · obtain ⟨op, x, y, n, kk, nnn⟩ := f
    dsimp only
    rintro ⟨hword, haddress, hbyte⟩
    have := kk.toNat_lt
    -- each field is the quotient or the remainder of one that is known by now
    have eop : op = (ofWord w).op := Fin.ext (by omega)
    have ennn : nnn = (ofWord w).nnn := Fin.ext (by omega)
    have ex : x = (ofWord w).x := Fin.ext (by omega)
    have ekk : kk = (ofWord w).kk := UInt8.toNat_inj.mp (by omega)
    have ey : y = (ofWord w).y := Fin.ext (by omega)
    have en : n = (ofWord w).n := Fin.ext (by omega)
    rw [eop, ex, ey, en, ekk, ennn]

/-- The low sixteen bits decide the fields, and the fields decide them. -/
theorem ofWord_eq_ofWord_iff : ofWord v = ofWord w ↔ v % 65536 = w % 65536 := by
  obtain ⟨hword, haddress, hbyte⟩ := eq_ofWord_iff.mp (Eq.refl (ofWord v))
  rw [eq_ofWord_iff, hword]
  exact ⟨fun h => h.1, fun h => ⟨h, haddress, hbyte⟩⟩

end Fields

/-- **Any integer is cut into bytes and into fields, and its low sixteen bits are all that counts.** Its
two bytes are joined to the integer modulo `65536`. Two integers are refused exactly if one of them is no
byte; otherwise the word that they are joined to is cut into them again. The fields are within their
bounds, fit together and make up the low sixteen bits. Two integers have the same fields exactly if they are
equal modulo `65536`. -/
theorem words_decompose :
    (∀ w : Int,
      let (high, low) := Word.split w
      high.toNat ≤ 255 ∧ low.toNat ≤ 255 ∧
      ∃ word, Word.joinChecked high.toNat low.toNat = .ok word ∧ (word.toNat : Int) = w % 65536) ∧
    (∀ a b : Int,
      (Word.joinChecked a b = .error .notBytes ↔ ¬(0 ≤ a ∧ a ≤ 255) ∨ ¬(0 ≤ b ∧ b ≤ 255)) ∧
      ((0 ≤ a ∧ a ≤ 255) ∧ (0 ≤ b ∧ b ≤ 255) →
        ∃ word, Word.joinChecked a b = .ok word ∧
          let (high, low) := Word.split word.toNat
          (high.toNat : Int) = a ∧ (low.toNat : Int) = b)) ∧
    (∀ w : Int,
      let f := Fields.ofWord w
      (f.op.val ≤ 15 ∧ f.x.val ≤ 15 ∧ f.y.val ≤ 15 ∧ f.n.val ≤ 15 ∧ f.kk.toNat ≤ 255 ∧ f.nnn.val ≤ 4095) ∧
      (f.op.val : Int) * 4096 + f.nnn.val = w % 65536 ∧
      f.nnn.val = f.x.val * 256 + f.kk.toNat ∧
      f.kk.toNat = f.y.val * 16 + f.n.val) ∧
    ∀ v w : Int, Fields.ofWord v = Fields.ofWord w ↔ v % 65536 = w % 65536 := by
  refine ⟨fun w => ?_, fun a b => ⟨?_, ?_⟩, fun w => ?_, fun v w => Fields.ofWord_eq_ofWord_iff⟩
  · have hhigh := (Word.high w).toNat_lt
    have hlow := (Word.low w).toNat_lt
    exact ⟨by omega, by omega, _, Word.joinChecked_split w, Word.toNat_ofInt w⟩
  · rw [Word.joinChecked_eq_error_iff, Classical.not_and_iff_not_or_not]
    rfl
  · rintro ⟨ha, hb⟩
    refine ⟨_, Word.joinChecked_of_isByte ha hb, ?_⟩
    rw [Word.split_join]
    exact ⟨Word.toNat_low_of_isByte ha, Word.toNat_low_of_isByte hb⟩
  · intro f
    obtain ⟨hword, haddress, hbyte⟩ := Fields.eq_ofWord_iff.mp (Eq.refl f)
    have := f.kk.toNat_lt
    exact ⟨by omega, hword, by omega, by omega⟩

/-- The bytes 255 and 0 are joined and found again, and `-256` has the fields of the word that they are
joined to. -/
theorem words_decompose_negative :
    (∃ word, Word.joinChecked 255 0 = .ok word ∧
      let (high, low) := Word.split word.toNat
      (high.toNat : Int) = 255 ∧ (low.toNat : Int) = 0) ∧
    Fields.ofWord (-256) = Fields.ofWord 65280 := by
  obtain ⟨-, hjoin, -, hfields⟩ := words_decompose
  exact ⟨(hjoin 255 0).2 (by decide), (hfields (-256) 65280).mpr (by decide)⟩

end Chip8

import Chip8.Text.Hex
import Chip8.Text.Numeral
import Mathlib.Data.List.TakeWhile

/-!
# Numerals that are read back

An integer is written in decimal without anything that need not be there: no white space, no plus
sign, no leading zero, no underscore. It is read back as it was if it has no more digits than a
numeral may have, and otherwise it is refused. Without its sign it is also a plain decimal number.

* `natural?_toDigits` and `integer?_decimal`: reading what was written.
* `isDecimal_toDigits`: its digits as a decimal number.
-/

namespace Chip8.Text

/-- The integer `n` in base ten. -/
def decimal (n : Int) : String := String.ofList (sign n ++ Nat.toDigits 10 n.natAbs)

/-- How many digits an integer has. -/
def digitCount (n : Int) : Nat := (Nat.toDigits 10 n.natAbs).length

example : decimal (-120) = "-120" ∧ decimal 0 = "0" ∧ digitCount (-120) = 3 := by decide

/-! ### Digits -/

section

variable {c : Char} {n : Nat}

theorem bounds_of_isDigit (h : c.isDigit) : 48 ≤ c.toNat ∧ c.toNat ≤ 57 := by
  simpa [Char.isDigit, UInt32.le_iff_toNat_le] using h

theorem digitValue?_of_isDigit (h : c.isDigit) : digitValue? c = some (c.toNat - 48) := by
  obtain ⟨hzero, hnine⟩ := bounds_of_isDigit h
  have hc : Char.ofNat (48 + (c.toNat - 48)) = c := by
    rw [Nat.add_sub_cancel' hzero, Char.ofNat_toNat]
  have hread := digitValue?_ofNat (n := c.toNat - 48) (by omega)
  rwa [hc] at hread

theorem isDigit_of_mem_toDigits (h : c ∈ Nat.toDigits 10 n) : c.isDigit :=
  Nat.isDigit_of_mem_toDigits (by decide) (by decide) h

/-- A digit is none of the other characters of a numeral. -/
theorem ne_of_isDigit {d : Char} (h : c.isDigit) (hd : d.isDigit = false) : c ≠ d := by
  rintro rfl
  rw [h] at hd
  cases hd

theorem isBlank_of_isDigit (h : c.isDigit) : isBlank c = false := by
  obtain ⟨hzero, hnine⟩ := bounds_of_isDigit h
  simp [isBlank, blankRanges]
  omega

/-- Digits without underscores are read one by one. -/
theorem digits?_of_isDigit {s : List Char} (hs : ∀ c ∈ s, c.isDigit) (hne : s ≠ []) :
    digits? s = some (s.map fun c => c.toNat - 48) := by
  induction s with
  | nil => exact absurd rfl hne
  | cons c rest ih =>
    have hc := digitValue?_of_isDigit (hs c List.mem_cons_self)
    have hrest : ∀ d ∈ rest, d.isDigit := fun d hd => hs d (List.mem_cons_of_mem c hd)
    cases rest with
    | nil => simp [digits?, hc]
    | cons d rest =>
      have hd : d ≠ '_' := ne_of_isDigit (hrest d List.mem_cons_self) (by decide)
      rw [digits?, hc, ih hrest (List.cons_ne_nil d rest)]
      · rfl
      · exact List.cons_ne_nil d rest
      · exact fun _ h => hd (List.head_eq_of_cons_eq h)

/-- A number is read from its digits. -/
theorem natural?_toDigits (n : Nat) :
    natural? (Nat.toDigits 10 n) = if (Nat.toDigits 10 n).length ≤ maxDigits then some n else none := by
  have hread := digits?_of_isDigit (fun _ => isDigit_of_mem_toDigits (n := n)) Nat.toDigits_ne_nil
  have hvalue : ofDigits ((Nat.toDigits 10 n).map fun c => c.toNat - 48) = n :=
    calc ofDigits ((Nat.toDigits 10 n).map fun c => c.toNat - 48)
      _ = Nat.ofDigitChars 10 (Nat.toDigits 10 n) 0 := by rw [ofDigits, List.foldl_map]; rfl
      _ = n := Nat.ofDigitChars_toDigits (by decide) (by decide)
  simp only [natural?, hread, Option.bind_eq_bind, Option.bind_some, List.length_map, hvalue]

end

/-! ### Signs and white space -/

/-- Digits alone have no sign. -/
theorem signed?_of_isDigit {s : List Char} (hs : ∀ c ∈ s, c.isDigit) :
    signed? s = (natural? s).map Int.ofNat := by
  unfold signed?
  split
  case h_1 => exact absurd (hs '-' List.mem_cons_self) (by decide)
  case h_2 => exact absurd (hs '+' List.mem_cons_self) (by decide)
  case h_3 => rfl

/-- What has no white space in it is read as a whole. -/
theorem integer?_of_not_isBlank {s : List Char} (hs : ∀ c ∈ s, isBlank c = false) : integer? s = signed? s := by
  have hstart : s.dropWhile isBlank = s :=
    List.dropWhile_eq_self_iff.mpr fun h => by simp [hs _ (List.getElem_mem h)]
  have hbody : s.takeWhile (!isBlank ·) = s :=
    List.takeWhile_eq_self_iff.mpr fun c hc => by simp [hs c hc]
  have hrest : s.dropWhile (!isBlank ·) = [] :=
    List.dropWhile_eq_nil_iff.mpr fun c hc => by simp [hs c hc]
  simp only [integer?, hstart, hbody, hrest, List.all_nil, ↓reduceIte]

theorem toList_decimal (n : Int) : (decimal n).toList = sign n ++ Nat.toDigits 10 n.natAbs :=
  String.toList_ofList

theorem signed?_decimal (n : Int) :
    signed? (decimal n).toList = if digitCount n ≤ maxDigits then some n else none := by
  have hread := natural?_toDigits n.natAbs
  rw [toList_decimal, sign]
  by_cases hneg : n < 0
  · have hvalue : -(n.natAbs : Int) = n := by omega
    rw [if_pos hneg, List.singleton_append, signed?, hread, digitCount]
    split
    case isTrue => exact congrArg some hvalue
    case isFalse => rfl
  · have hvalue : (n.natAbs : Int) = n := Int.natAbs_of_nonneg (by omega)
    rw [if_neg hneg, List.nil_append, signed?_of_isDigit fun _ => isDigit_of_mem_toDigits, hread, digitCount]
    split
    case isTrue => exact congrArg some hvalue
    case isFalse => rfl

/-- **An integer is read back as it was written**, unless it has too many digits to be read at all. -/
theorem integer?_decimal (n : Int) :
    integer? (decimal n).toList = if digitCount n ≤ maxDigits then some n else none := by
  rw [integer?_of_not_isBlank, signed?_decimal]
  rw [toList_decimal, sign]
  intro c hc
  split at hc
  case isTrue =>
    rcases List.mem_cons.mp hc with rfl | hc
    · decide
    · exact isBlank_of_isDigit (isDigit_of_mem_toDigits hc)
  case isFalse => exact isBlank_of_isDigit (isDigit_of_mem_toDigits hc)

/-- Digits alone are a plain decimal number. -/
theorem isDecimal_toDigits (n : Nat) : isDecimal (Nat.toDigits 10 n) = true := by
  have hend : (Nat.toDigits 10 n).getLast? ≠ some '\n' := fun h =>
    absurd (isDigit_of_mem_toDigits (List.mem_of_getLast? h)) (by decide)
  have hdigits : (Nat.toDigits 10 n).dropWhile isDigit = [] := by
    refine List.dropWhile_eq_nil_iff.mpr fun c hc => ?_
    rw [isDigit, digitValue?_of_isDigit (isDigit_of_mem_toDigits hc)]
    rfl
  simp [isDecimal, hend, hdigits, Nat.toDigits_ne_nil]

end Chip8.Text

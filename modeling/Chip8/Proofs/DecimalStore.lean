import Chip8.Proofs.Commands

/-!
# Decimal digits and the number that they stand for

The digits of an integer stand for it, the tens and the units are single digits, and no other digits
do both. For a byte the hundreds are a single digit too, at most two. So the three bytes that are
stored for a register are its digits as they are, with nothing cut off, and a program that reads
them back finds the value of the register.

* `eq_ofInt_iff` and `hundreds_ofInt`: the digits that stand for an integer, and those of a byte.
* `ofBytes_setBlock`: the digits of a byte, read back from memory.
* `decimal_of_executes`: what is left by an instruction that stores digits.
* `stored_digits_determine`: all of this, for all integers and on all machines.
-/

namespace Chip8

namespace Digits

variable {d : Digits} {b : Int}

/-- **The digits of an integer are the only ones that stand for it** with single digits for its tens and
its units. -/
theorem eq_ofInt_iff :
    d = ofInt b ↔ d.value = b ∧ (0 ≤ d.tens ∧ d.tens ≤ 9) ∧ 0 ≤ d.units ∧ d.units ≤ 9 := by
  obtain ⟨hundreds, tens, units⟩ := d
  simp only [value, ofInt, Digits.mk.injEq]
  omega

theorem hundreds_ofInt (h0 : 0 ≤ b) (h1 : b ≤ 255) : 0 ≤ (ofInt b).hundreds ∧ (ofInt b).hundreds ≤ 2 := by
  simp only [ofInt]
  omega

/-- The digits that three bytes in a row are. -/
def ofBytes (m : Memory) (a : Int) : Digits :=
  ⟨(m.byteAt a).toNat, (m.byteAt (a + 1)).toNat, (m.byteAt (a + 2)).toNat⟩

/-- The digits of a byte are read back as they were, so to write them as bytes has cut nothing off. -/
theorem ofBytes_setBlock {m : Memory} {a : Int} (v : UInt8) (h0 : 0 ≤ a) (h1 : a + 2 ≤ m.top) :
    ofBytes (m.setBlock a [v / 100, v / 10 % 10, v % 10]) a = ofInt v.toNat := by
  have hfit : a + [v / 100, v / 10 % 10, v % 10].length - 1 ≤ m.top := by
    simp only [List.length_cons, List.length_nil]
    omega
  generalize hdone : m.setBlock a [v / 100, v / 10 % 10, v % 10] = done
  have hhundreds : done.byteAt (a + 0) = v / 100 := hdone ▸ Memory.byteAt_setBlock_add (j := 0) h0 hfit (by simp)
  have htens : done.byteAt (a + 1) = v / 10 % 10 := hdone ▸ Memory.byteAt_setBlock_add (j := 1) h0 hfit (by simp)
  have hunits : done.byteAt (a + 2) = v % 10 := hdone ▸ Memory.byteAt_setBlock_add (j := 2) h0 hfit (by simp)
  rw [Int.add_zero] at hhundreds
  simp [ofBytes, ofInt, hhundreds, htens, hunits]

end Digits

namespace Machine

variable {m : Machine} {c : Command} {x : Nibble}

/-- Where no register but PC was set, the others are as they were. -/
theorem kept_of_setPC {done : Machine} {a : Int} (h : done.registers = m.registers.setPC a) :
    (∀ y, done.board.reg y = m.board.reg y) ∧ done.board.index = m.board.index ∧ done.board.sp = m.board.sp := by
  refine ⟨fun y => ?_, ?_, ?_⟩
  · calc done.board.reg y = done.registers.get y := rfl
      _ = m.board.reg y := by rw [h, Registers.get_setPC]; rfl
  · calc done.board.index = (done.registers.i.toNat : Int) := rfl
      _ = m.board.index := by rw [h, Registers.i_setPC]; rfl
  · calc done.board.sp = (done.registers.sp.toNat : Int) := rfl
      _ = m.board.sp := by rw [h, Registers.sp_setPC]; rfl

/-- Storing digits that there are bytes for. -/
theorem decimal_of_executes (fuel : Nat) (h : m.Executes c (.decimal x)) (hfit : m.board.index + 2 ≤ m.memory.top) :
    (perform fuel c).answer m = .ok .done ∧
    ((perform fuel c).after m).memory = m.memory.setBlock m.board.index
      [m.board.reg x / 100, m.board.reg x / 10 % 10, m.board.reg x % 10] ∧
    ((perform fuel c).after m).registers = m.registers.setPC (m.board.pc + 2) := by
  obtain ⟨hanswer, hrow⟩ := performs_of_executes fuel h (Int.not_lt.mpr hfit)
  refine ⟨hanswer, ?_⟩
  rw [memory, registers]
  generalize ((perform fuel c).after m).board = b at hrow
  cases hrow
  exact ⟨rfl, rfl⟩

/-- **Decimal digits determine the number.** The digits of any integer, below zero or beyond a byte
too, stand for it with tens and units from 0 to 9, and no other ones do; those of a byte have hundreds
from 0 to 2. A machine with three bytes at I that stores the digits of a register leaves them there as
they are: each byte is at most 9, and together they stand for the value of the register. No other byte
is changed, and no register but PC. -/
theorem stored_digits_determine :
    (∀ (b : Int) (d : Digits), d = Digits.ofInt b ↔
      100 * d.hundreds + 10 * d.tens + d.units = b ∧ (0 ≤ d.tens ∧ d.tens ≤ 9) ∧ 0 ≤ d.units ∧ d.units ≤ 9) ∧
    (∀ b : Int, 0 ≤ b → b ≤ 255 → 0 ≤ (Digits.ofInt b).hundreds ∧ (Digits.ofInt b).hundreds ≤ 2) ∧
    ∀ (m : Machine) (x : Nibble) (fuel : Nat) (c : Command),
      m.Executes c (.decimal x) → m.board.index + 2 ≤ m.memory.top →
      let done := (perform fuel c).after m
      let stored (k : Int) := done.memory.byteAt (m.board.index + k)
      (perform fuel c).answer m = .ok .done ∧
      (stored 0 ≤ 9 ∧ stored 1 ≤ 9 ∧ stored 2 ≤ 9) ∧
      ⟨(stored 0).toNat, (stored 1).toNat, (stored 2).toNat⟩ = Digits.ofInt (m.board.reg x).toNat ∧
      100 * (stored 0).toNat + 10 * (stored 1).toNat + (stored 2).toNat = (m.board.reg x).toNat ∧
      (∀ p, ¬(m.board.index ≤ p ∧ p ≤ m.board.index + 2) → done.memory.byteAt p = m.memory.byteAt p) ∧
      (∀ y, done.board.reg y = m.board.reg y) ∧ done.board.index = m.board.index ∧ done.board.sp = m.board.sp := by
  refine ⟨fun b d => Digits.eq_ofInt_iff, fun b => Digits.hundreds_ofInt, ?_⟩
  intro m x fuel c hc hfit done stored
  obtain ⟨hanswer, hmemory, hregisters⟩ := decimal_of_executes fuel hc hfit
  have hread : Digits.ofBytes done.memory m.board.index = Digits.ofInt (m.board.reg x).toNat :=
    hmemory ▸ Digits.ofBytes_setBlock _ m.board.index_nonneg hfit
  have hdigits : ⟨(stored 0).toNat, (stored 1).toNat, (stored 2).toNat⟩ = Digits.ofInt (m.board.reg x).toNat := by
    rw [← hread]
    simp only [stored, Int.add_zero, Digits.ofBytes]
  obtain ⟨hvalue, ⟨-, htens⟩, -, hunits⟩ := Digits.eq_ofInt_iff.mp hdigits
  have hhundreds := (Digits.hundreds_ofInt (b := (m.board.reg x).toNat) (by omega)
    (by have := (m.board.reg x).toNat_lt; omega)).2
  rw [← hdigits] at hhundreds
  simp only [Digits.value] at hvalue htens hunits hhundreds
  have hsmall {v : UInt8} (hv : v.toNat ≤ 9) : v ≤ 9 := UInt8.le_iff_toNat_le.mpr hv
  refine ⟨hanswer, ⟨hsmall (by omega), hsmall (by omega), hsmall (by omega)⟩, hdigits, by omega, fun p hout => ?_,
    kept_of_setPC hregisters⟩
  rw [hmemory]
  exact Memory.byteAt_setBlock_of_not_mem _ (by simp only [List.length_cons, List.length_nil]; omega)

/-- A machine that stores the digits of 254 in the last three bytes of its memory. -/
def counting : Machine where
  board :=
    ⟨(Memory.blank 5).setBlock 0 [0xF1, 0x33], ⟨Vector.replicate 16 254, 2, 0, 0⟩, .overlay, Screen.ofAnswers []⟩
  processor := Processor.blank false false 0
  journal := Journal.ofSetting Setting.off

/-- They are read back. -/
theorem stored_digits_determine_counting :
    let done := (perform 0 .step).after counting
    (perform 0 .step).answer counting = .ok .done ∧
      100 * (done.memory.byteAt 2).toNat + 10 * (done.memory.byteAt 3).toNat + (done.memory.byteAt 4).toNat = 254 := by
  have hdecimal : counting.Executes .step (.decimal 1) :=
    ⟨by decide +kernel, Instruction.decode?_eq_some_iff.mp (by decide +kernel)⟩
  obtain ⟨-, -, hstored⟩ := stored_digits_determine
  obtain ⟨hanswer, -, -, hvalue, -⟩ := hstored counting 1 0 .step hdecimal (by decide +kernel)
  exact ⟨hanswer, hvalue⟩

end Machine

end Chip8

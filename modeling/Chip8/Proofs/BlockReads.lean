import Chip8.Proofs.LastStored

/-!
# What a block read returns

The size of a block that is read may be any integer. One that is positive has the last address
checked and gives as many bytes as it says. No other size is checked, for then the block is taken
as the slice that ends at `a + size`: nothing if the end is an address, and if it is below zero all
bytes from `a` on but as many at the end of the bank as it is below zero. In none of these cases is
a byte returned that is not in the bank, and the first byte is always the one at `a`.

* `length_block_cases`: how many bytes a block has.
* `mem_of_lt_length_block`: all of them are in the bank.
* `readBlock_returns_iff`: what is returned, for every size.
-/

namespace Chip8.Memory

variable {m : Memory} {a size : Int}

theorem length_block_cases (m : Memory) (a size : Int) :
    (0 ≤ size → ((m.block a size).length : Int) = size) ∧
    (size < 0 → 0 ≤ a + size → m.block a size = []) ∧
    (size < 0 → a + size < 0 → ((m.block a size).length : Int) = max 0 (m.size + size)) := by
  rw [← List.length_eq_zero_iff, length_block]
  refine ⟨fun hpos => ?_, fun hneg hend => ?_, fun hneg hend => ?_⟩
  · rw [extent, if_pos hpos]
    omega
  · rw [extent, if_neg (by omega), if_neg (by omega)]
  · rw [extent, if_neg (by omega), if_pos hend]
    omega

/-- A block that can be read does not reach past the end of the bank. -/
theorem mem_of_lt_length_block (ha : a ∈ m) (hlast : 0 < size → a + size - 1 ∈ m) {j : Nat}
    (hj : j < (m.block a size).length) : a + j ∈ m := by
  rw [length_block] at hj
  rw [mem_iff, top_def] at ha ⊢
  unfold extent at hj
  split at hj
  case isTrue =>
    have hend := (hlast (by omega)).2
    rw [top_def] at hend
    omega
  case isFalse =>
    split at hj
    case isTrue => omega
    case isFalse => exact absurd hj (Nat.not_lt_zero j)

theorem getElem_block {j : Nat} (hj : j < (m.block a size).length) :
    (m.block a size)[j] = m.byteAt (a + j) := by
  simp [block]

/-- **What a block read returns, for every size.** It returns where `a` is in the bank, and the last
address too if there is to be a byte. There are as many bytes as were asked for; if fewer than
none, there is nothing up to an address, and up to an end below zero there are as many as the
size leaves of the bank. Each of them is the byte that is found, and read, at its address from `a`
on, and no such address is above the top of the bank. -/
theorem readBlock_returns_iff (m : Memory) (a size : Int) (bytes : List UInt8) :
    (readBlock a size).answer m = .ok bytes ↔
      (a ∈ m ∧ (0 < size → a + size - 1 ∈ m)) ∧
      (0 ≤ size → (bytes.length : Int) = size) ∧
      (size < 0 → 0 ≤ a + size → bytes = []) ∧
      (size < 0 → a + size < 0 → (bytes.length : Int) = max 0 (m.size + size)) ∧
      ∀ j (hj : j < bytes.length),
        a + j ≤ m.top ∧ m.byteAt (a + j) = bytes[j] ∧ (read (a + j)).answer m = .ok bytes[j] := by
  obtain ⟨hpos, hempty, hwrapped⟩ := length_block_cases m a size
  rw [readBlock_answer_eq_ok_iff, forall_mem_ends]
  constructor
  · rintro ⟨⟨ha, hlast⟩, rfl⟩
    refine ⟨⟨ha, hlast⟩, hpos, hempty, hwrapped, fun j hj => ?_⟩
    have hin := mem_of_lt_length_block ha hlast hj
    rw [getElem_block]
    exact ⟨hin.2, rfl, answer_read hin⟩
  · rintro ⟨hends, hlength, hnil, hlong, hbytes⟩
    -- a list of this length whose bytes are those of the bank is the block
    have hsize : bytes.length = (m.block a size).length := by
      rcases Int.lt_or_le size 0 with hneg | hsize
      · rcases Int.lt_or_le (a + size) 0 with hend | hend
        · have := hlong hneg hend
          have := hwrapped hneg hend
          omega
        · rw [hnil hneg hend, hempty hneg hend]
      · have := hlength hsize
        have := hpos hsize
        omega
    refine ⟨hends, List.ext_getElem hsize fun j hj _ => ?_⟩
    rw [getElem_block, (hbytes j hj).2.1]

/-- Of eight bytes, five are left from address 1 on if the end is two below zero. -/
example : (readBlock 1 (-3)).answer (blank 8) = .ok [0, 0, 0, 0, 0] := by rfl

end Chip8.Memory

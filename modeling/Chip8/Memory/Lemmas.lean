import Chip8.Memory.Basic

/-!
# What the accesses of a bank do

Each access is described once by an equation, in terms of which addresses are in the
bank and of the view `Memory.byteAt`. After that nothing needs to look into an access
again.

* `read_eq`, `write_eq`, `readWord_eq`, `writeWord_eq`, `readBlock_eq` and
  `writeBlock_eq`: when an access faults, with which address, and what it does
  otherwise. A fault leaves the bank as it was, also for an access of several bytes.
* `byteAt_setByte` and `byteAt_setBlock`: what is found after a write.
* `slice_eq`: which bytes a block read holds.
* `ext_byteAt`: a bank is determined by its size and its bytes.
-/

namespace Chip8.Memory

variable {m : Memory} {a c : Int} {b : UInt8}

/-! ### Addresses -/

theorem mem_iff : a ∈ m ↔ 0 ≤ a ∧ a ≤ m.top := Iff.rfl

theorem top_def : m.top = m.size - 1 := rfl

/-- An address of the bank is the place of one of its cells. -/
theorem toNat_lt_of_mem (h : a ∈ m) : a.toNat < m.cells.size := by
  obtain ⟨h0, h1⟩ := h
  rw [m.size_cells]
  simp only [top_def] at h1
  omega

@[simp] theorem mem_blank {size : Int} : a ∈ blank size ↔ 0 ≤ a ∧ a ≤ size - 1 := Iff.rfl

@[simp] theorem byteAt_blank {size : Int} : (blank size).byteAt a = 0 := by
  simp only [byteAt, blank]
  split
  · by_cases h : a.toNat < size.toNat <;> simp [h]
  · rfl

/-- Two banks are the same if they have the same size and the same bytes. -/
theorem ext_byteAt {m' : Memory} (hs : m.size = m'.size)
    (hb : ∀ a, a ∈ m → m.byteAt a = m'.byteAt a) : m = m' := by
  have hc : m.cells = m'.cells := by
    apply Array.ext
    · rw [m.size_cells, m'.size_cells, hs]
    · intro i h₁ h₂
      have hi : (i : Int) ∈ m := by
        rw [m.size_cells] at h₁
        simp only [mem_iff, top_def]
        omega
      simpa [byteAt, h₁, h₂] using hb i hi
  cases m
  cases m'
  simp_all

/-! ### Writing one byte -/

@[simp] theorem size_setByte : (m.setByte a b).size = m.size := by
  unfold setByte
  split <;> rfl

@[simp] theorem top_setByte : (m.setByte a b).top = m.top := by
  simp only [top_def, size_setByte]

@[simp] theorem mem_setByte : c ∈ m.setByte a b ↔ c ∈ m := by
  simp only [mem_iff, top_setByte]

/-- A byte that was written is found, and all others are as they were. -/
theorem byteAt_setByte (h : a ∈ m) :
    (m.setByte a b).byteAt c = if c = a then b else m.byteAt c := by
  have hlt := toNat_lt_of_mem h
  have h0 := h.1
  simp only [setByte, h0, ↓reduceIte, byteAt]
  by_cases hc : 0 ≤ c
  · by_cases hca : c = a
    · subst hca
      simp [h0, hlt]
    · have hne : a.toNat ≠ c.toNat := by omega
      simp [hc, hca, hne]
  · have hca : c ≠ a := by omega
    simp [hc, hca]

theorem setByte_of_not_mem (h : a ∉ m) : m.setByte a b = m := by
  unfold setByte
  split
  · have hout : m.cells.size ≤ a.toNat := by
      rw [mem_iff, top_def] at h
      rw [m.size_cells]
      omega
    cases m
    simp only [Array.setIfInBounds_eq_of_size_le hout]
  · rfl

/-! ### Writing a block -/

@[simp] theorem size_setBlock (block : List UInt8) : (m.setBlock a block).size = m.size := by
  induction block generalizing m a with
  | nil => rfl
  | cons b rest ih => rw [setBlock, ih, size_setByte]

@[simp] theorem top_setBlock (block : List UInt8) : (m.setBlock a block).top = m.top := by
  simp only [top_def, size_setBlock]

@[simp] theorem mem_setBlock (block : List UInt8) : c ∈ m.setBlock a block ↔ c ∈ m := by
  simp only [mem_iff, top_setBlock]

/-- A block that was written is found byte for byte, and all other bytes are as they were. -/
theorem byteAt_setBlock (block : List UInt8) (h0 : 0 ≤ a) (h1 : a + block.length - 1 ≤ m.top) :
    (m.setBlock a block).byteAt c =
      if a ≤ c ∧ c < a + block.length then block.getD (c - a).toNat 0 else m.byteAt c := by
  induction block generalizing m a with
  | nil =>
    have : ¬(a ≤ c ∧ c < a + ([] : List UInt8).length) := by
      rw [List.length_nil]
      omega
    rw [setBlock, if_neg this]
  | cons b rest ih =>
    simp only [List.length_cons] at h1 ⊢
    have ha : a ∈ m := by
      rw [mem_iff]
      omega
    rw [setBlock, ih (by omega) (by rw [top_setByte]; omega), byteAt_setByte ha]
    by_cases hca : c = a
    · subst hca
      have h2 : ¬(c + 1 ≤ c ∧ c < c + 1 + rest.length) := by omega
      have h3 : c ≤ c ∧ c < c + ↑(rest.length + 1) := by omega
      rw [if_neg h2, if_pos rfl, if_pos h3]
      simp
    · rw [if_neg hca]
      by_cases h2 : a + 1 ≤ c ∧ c < a + 1 + rest.length
      · have h3 : a ≤ c ∧ c < a + ↑(rest.length + 1) := by omega
        have h4 : (c - a).toNat = (c - (a + 1)).toNat + 1 := by omega
        rw [if_pos h2, if_pos h3, h4, List.getD_cons_succ]
      · have h3 : ¬(a ≤ c ∧ c < a + ↑(rest.length + 1)) := by omega
        rw [if_neg h2, if_neg h3]

theorem byteAt_setBlock_add {block : List UInt8} {j : Nat} (h0 : 0 ≤ a) (h1 : a + block.length - 1 ≤ m.top)
    (hj : j < block.length) : (m.setBlock a block).byteAt (a + j) = block[j] := by
  have hplace : (a + (j : Int) - a).toNat = j := by omega
  rw [byteAt_setBlock block h0 h1, if_pos (by omega), hplace, List.getD_eq_getElem?_getD,
    List.getElem?_eq_getElem hj, Option.getD_some]

/-- A byte outside of a block is as it was. -/
theorem byteAt_setBlock_of_not_mem (block : List UInt8) (h : ¬(a ≤ c ∧ c < a + block.length)) :
    (m.setBlock a block).byteAt c = m.byteAt c := by
  induction block generalizing m a with
  | nil => rfl
  | cons b rest ih =>
    simp only [List.length_cons] at h
    rw [setBlock, ih (by omega)]
    by_cases ha : a ∈ m
    · rw [byteAt_setByte ha, if_neg (by omega)]
    · rw [setByte_of_not_mem ha]

/-- A block of at most `n` bytes changes no byte outside of its `n` addresses. -/
theorem byteAt_setBlock_of_le {block : List UInt8} {n : Nat} (hlength : block.length ≤ n)
    (h : ¬(a ≤ c ∧ c < a + n)) : (m.setBlock a block).byteAt c = m.byteAt c :=
  byteAt_setBlock_of_not_mem block (by omega)

/-- What is found after a block was written depends only on what was there before. -/
theorem byteAt_setBlock_congr {m' : Memory} (block : List UInt8) (hsize : m'.size = m.size)
    (h : m'.byteAt c = m.byteAt c) :
    (m'.setBlock a block).byteAt c = (m.setBlock a block).byteAt c := by
  induction block generalizing m m' a with
  | nil => exact h
  | cons b rest ih =>
    rw [setBlock, setBlock]
    refine ih (by rw [size_setByte, size_setByte, hsize]) ?_
    have hmem : a ∈ m' ↔ a ∈ m := by rw [mem_iff, mem_iff, top_def, top_def, hsize]
    by_cases ha : a ∈ m
    · rw [byteAt_setByte ha, byteAt_setByte (hmem.mpr ha), h]
    · rw [setByte_of_not_mem ha, setByte_of_not_mem (mt hmem.mp ha), h]

/-! ### Reading a block -/

/-- A slice holds the bytes of the bank from `a` on; `n` of them if there are so many. -/
theorem slice_eq (h0 : 0 ≤ a) (n : Nat) (h1 : a + n ≤ m.cells.size) :
    m.slice a (a + n) = (List.range n).map fun (k : Nat) => m.byteAt (a + k) := by
  apply List.ext_getElem
  · have : ¬(a + n < 0) := by omega
    simp only [slice, if_neg this, Array.length_toList, Array.size_extract, List.length_map,
      List.length_range]
    omega
  · intro k h₁ h₂
    have hn : ¬(a + n < 0) := by omega
    have hk : k < n := by simpa using h₂
    have hp : 0 ≤ a + (k : Int) := by omega
    have ht : (a + (k : Int)).toNat = a.toNat + k := by omega
    have hlt : a.toNat + k < m.cells.size := by omega
    simp only [slice, if_neg hn, Array.getElem_toList, Array.getElem_extract, List.getElem_map,
      List.getElem_range, byteAt, if_pos hp, ht, Array.getElem?_eq_getElem hlt, Option.getD_some]

/-! ### Accesses -/

theorem check_of_mem (h : a ∈ m) : check a m = .ok () m := by
  simp [check, Exec.bind_apply, h]

theorem check_of_not_mem (h : a ∉ m) : check a m = .error (.outOfBounds a m.top) m := by
  simp [check, Exec.bind_apply, h]

theorem read_eq (a : Int) (m : Memory) :
    read a m = if a ∈ m then .ok (m.byteAt a) m else .error (.outOfBounds a m.top) m := by
  by_cases h : a ∈ m
  · simp [read, Exec.bind_apply, check_of_mem, h]
  · simp [read, Exec.bind_apply, check_of_not_mem, h]

theorem write_eq (a w : Int) (m : Memory) :
    write a w m =
      if a ∈ m then .ok () (m.setByte a (Word.low w)) else .error (.outOfBounds a m.top) m := by
  by_cases h : a ∈ m
  · simp [write, Exec.bind_apply, check_of_mem, h]
  · simp [write, Exec.bind_apply, check_of_not_mem, h]

theorem readWord_eq (a : Int) (m : Memory) :
    readWord a m =
      if a ∉ m then .error (.outOfBounds a m.top) m
      else if a + 1 ∉ m then .error (.outOfBounds (a + 1) m.top) m
      else .ok (Word.join (m.byteAt a) (m.byteAt (a + 1))) m := by
  by_cases h : a ∈ m <;> by_cases h' : a + 1 ∈ m <;>
    simp [readWord, Exec.bind_apply, read_eq, h, h']

/-- The second address of a word is checked first, so a word never is written by half. -/
theorem writeWord_eq (a w : Int) (m : Memory) :
    writeWord a w m =
      if a + 1 ∉ m then .error (.outOfBounds (a + 1) m.top) m
      else if a ∉ m then .error (.outOfBounds a m.top) m
      else .ok () ((m.setByte a (Word.high w)).setByte (a + 1) (Word.low w)) := by
  by_cases h : a ∈ m <;> by_cases h' : a + 1 ∈ m <;>
    simp [writeWord, Exec.bind_apply, write_eq, check_of_mem, check_of_not_mem, h, h']

theorem readBlock_eq (a n : Int) (m : Memory) :
    readBlock a n m =
      if a ∉ m then .error (.outOfBounds a m.top) m
      else if 0 < n ∧ a + n - 1 ∉ m then .error (.outOfBounds (a + n - 1) m.top) m
      else .ok (m.slice a (a + n)) m := by
  by_cases h : a ∈ m
  · by_cases hn : 0 < n
    · by_cases h' : a + n - 1 ∈ m
      · simp [readBlock, Exec.bind_apply, check_of_mem, h, hn, h']
      · simp [readBlock, Exec.bind_apply, check_of_mem, check_of_not_mem, h, hn, h']
    · simp [readBlock, Exec.bind_apply, check_of_mem, h, hn]
  · simp [readBlock, Exec.bind_apply, check_of_not_mem, h]

theorem writeBlock_eq (a : Int) (block : List UInt8) (m : Memory) :
    writeBlock a block m =
      if a ∉ m then .error (.outOfBounds a m.top) m
      else if block ≠ [] ∧ a + block.length - 1 ∉ m then
        .error (.outOfBounds (a + block.length - 1) m.top) m
      else .ok () (m.setBlock a block) := by
  by_cases h : a ∈ m
  · by_cases hn : block = []
    · simp [writeBlock, Exec.bind_apply, check_of_mem, h, hn]
    · by_cases h' : a + block.length - 1 ∈ m
      · simp [writeBlock, Exec.bind_apply, check_of_mem, h, hn, h']
      · simp [writeBlock, Exec.bind_apply, check_of_mem, check_of_not_mem, h, hn, h']
  · simp [writeBlock, Exec.bind_apply, check_of_not_mem, h]

end Chip8.Memory

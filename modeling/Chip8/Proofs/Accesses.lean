import Chip8.Memory.Command
import Chip8.Memory.Lemmas

/-!
# When an access is refused

A command needs some addresses, and it is refused if one of them is not in the bank. Which address
the fault names depends on the order in which they are checked. All checks come before the first
byte is stored, so a command that is refused has changed nothing, and one that is done stores
a whole block: a byte, a word, a block that was given, or a copy of what a block was before.

* `slice_eq_block`: which bytes a block holds, also one whose size is negative.
* `perform_eq`: what a command answers and what it leaves.
* `access_refused_iff`: when a command is refused, and what it may change otherwise.
-/

namespace Chip8.Memory

variable {m : Memory} {a size p : Int}

/-! ### Blocks of any size -/

/-- How many bytes a block has that begins at `a`. A block of negative size ends at `a + size`. If
that is below zero, it is counted from the end of the bank, and otherwise the block is empty. -/
def extent (m : Memory) (a size : Int) : Nat :=
  if 0 ≤ size then size.toNat else if a + size < 0 then (m.size + size).toNat else 0

/-- The bytes of a block. -/
def block (m : Memory) (a size : Int) : List UInt8 :=
  (List.range (m.extent a size)).map fun (k : Nat) => m.byteAt (a + k)

/-- The first and the last address of a block. Without bytes it only has a first one. -/
def ends (a size : Int) : List Int := if 0 < size then [a, a + size - 1] else [a]

/-- The cells of a bank that has any are as many as its size. -/
theorem size_cells_of_mem (h : a ∈ m) : (m.cells.size : Int) = m.size := by
  obtain ⟨h0, h1⟩ := h
  rw [m.size_cells]
  simp only [top_def] at h1
  omega

/-- A slice that ends where it begins, or before, is empty. -/
theorem slice_eq_nil {stop : Int} (h0 : 0 ≤ a)
    (h : (if stop < 0 then stop + m.cells.size else stop) ≤ a) : m.slice a stop = [] := by
  rw [← List.length_eq_zero_iff]
  simp only [slice, Array.length_toList, Array.size_extract]
  omega

/-- An end below zero is the same as one that is counted from the end of the bank. -/
theorem slice_of_neg {stop : Int} (hneg : stop < 0) (h : 0 ≤ stop + m.cells.size) :
    m.slice a stop = m.slice a (stop + m.cells.size) := by
  simp only [slice, if_pos hneg, if_neg (Int.not_lt.mpr h)]

/-- **The bytes of a block are those of the bank from its first address on.** -/
theorem slice_eq_block (ha : a ∈ m) (hlast : 0 < size → a + size - 1 ∈ m) :
    m.slice a (a + size) = m.block a size := by
  have h0 := ha.1
  have hcells := size_cells_of_mem ha
  have hfirst : a ≤ m.size - 1 := ha.2
  unfold block extent
  split
  case isTrue hsize =>
    have hfit : a + size.toNat ≤ m.cells.size := by
      rcases Int.lt_or_le 0 size with hpos | hzero
      · have := (hlast hpos).2
        rw [top_def] at this
        omega
      · omega
    have hstop : a + size = a + size.toNat := by omega
    rw [hstop, slice_eq h0 size.toNat hfit]
  case isFalse hsize =>
    split
    case isTrue hneg =>
      by_cases hcount : 0 ≤ m.size + size
      · have hstop : a + size + m.cells.size = a + (m.size + size).toNat := by omega
        rw [slice_of_neg hneg (by omega), hstop, slice_eq h0 _ (by omega)]
      · have hnone : (m.size + size).toNat = 0 := by omega
        rw [slice_eq_nil h0 (by rw [if_pos hneg]; omega), hnone]
        rfl
    case isFalse hend =>
      rw [slice_eq_nil h0 (by rw [if_neg hend]; omega)]
      rfl

theorem length_block (m : Memory) (a size : Int) : (m.block a size).length = m.extent a size := by
  rw [block, List.length_map, List.length_range]

theorem extent_natCast (m : Memory) (a : Int) (n : Nat) : m.extent a n = n := by
  rw [extent, if_pos (Int.natCast_nonneg n), Int.toNat_natCast]

namespace Command

/-! ### What a command needs, stores and answers -/

/-- The addresses that a command needs, in the order in which they are checked. -/
def needed (m : Memory) : Command → List Int
  | .check a | .read a | .write a _ => [a]
  | .readWord a => [a, a + 1]
  | .writeWord a _ => [a + 1, a]
  | .readBlock a size => ends a size
  | .writeBlock a block => ends a block.length
  | .copyBlock a size target => ends a size ++ ends target (m.extent a size)

/-- The first of them that is not in the bank. -/
def missing (m : Memory) (c : Command) : Option Int := (c.needed m).find? (· ∉ m)

/-- Where a command stores. -/
def target : Command → Int
  | .check a | .read a | .readBlock a _ | .readWord a | .write a _ | .writeBlock a _ | .writeWord a _ => a
  | .copyBlock _ _ target => target

/-- The bytes that a command stores, in a row from its target on. A copy has the bytes of its source
as they are before. -/
def stored (m : Memory) : Command → List UInt8
  | .write _ b => [Word.low b]
  | .writeWord _ w => [Word.high w, Word.low w]
  | .writeBlock _ block => block
  | .copyBlock a size _ => m.block a size
  | .check _ | .read _ | .readBlock _ _ | .readWord _ => []

/-- What a command answers when it is done. -/
def reply (m : Memory) : Command → Reply
  | .read a => .number (m.byteAt a).toNat
  | .readWord a => .number (Word.join (m.byteAt a) (m.byteAt (a + 1))).toNat
  | .readBlock a size => .block (m.block a size)
  | .check _ | .write _ _ | .writeBlock _ _ | .writeWord _ _ | .copyBlock _ _ _ => .done

end Command

/-! ### What a command does -/

/-- The ends of a block are checked one after the other. -/
theorem find?_ends (m : Memory) (a size : Int) :
    (ends a size).find? (· ∉ m) =
      if a ∉ m then some a else if 0 < size ∧ a + size - 1 ∉ m then some (a + size - 1) else none := by
  unfold ends
  by_cases hsize : 0 < size <;> by_cases ha : a ∈ m <;> by_cases hlast : a + size - 1 ∈ m <;>
    simp [hsize, ha, hlast]

theorem forall_mem_ends : (∀ q ∈ ends a size, q ∈ m) ↔ a ∈ m ∧ (0 < size → a + size - 1 ∈ m) := by
  unfold ends
  by_cases hsize : 0 < size <;> simp [hsize]

theorem find?_ends_eq_none : (ends a size).find? (· ∉ m) = none ↔ ∀ q ∈ ends a size, q ∈ m := by
  rw [List.find?_eq_none]
  simp

/-- A block is read unless one of its ends is missing. -/
theorem readBlock_ends (a size : Int) (m : Memory) :
    readBlock a size m = match (ends a size).find? (· ∉ m) with
      | some p => .error (.outOfBounds p m.top) m
      | none => .ok (m.block a size) m := by
  rw [find?_ends, readBlock_eq]
  split
  case isTrue => rfl
  case isFalse ha =>
    split
    case isTrue => rfl
    case isFalse hlast =>
      rw [slice_eq_block (Decidable.not_not.mp ha) fun hsize => Decidable.not_not.mp fun hout => hlast ⟨hsize, hout⟩]

/-- A block is written unless one of its ends is missing. -/
theorem writeBlock_ends (a : Int) (block : List UInt8) (m : Memory) :
    writeBlock a block m = match (ends a block.length).find? (· ∉ m) with
      | some p => .error (.outOfBounds p m.top) m
      | none => .ok () (m.setBlock a block) := by
  have hpos : block ≠ [] ↔ 0 < (block.length : Int) := by
    rw [← List.length_pos_iff, Int.natCast_pos]
  simp only [find?_ends, writeBlock_eq, hpos]
  split
  case isTrue => rfl
  case isFalse => split <;> rfl

/-- A block is read if both of its ends are in the bank, and what is read are its bytes. -/
theorem readBlock_answer_eq_ok_iff {bytes : List UInt8} :
    (readBlock a size).answer m = .ok bytes ↔ (∀ q ∈ ends a size, q ∈ m) ∧ bytes = m.block a size := by
  rw [← find?_ends_eq_none, Exec.answer, readBlock_ends]
  cases (ends a size).find? (· ∉ m) <;> simp [eq_comm]

/-- So is a block written, and it is laid over the bank then. -/
theorem writeBlock_answer_eq_ok_iff {block : List UInt8} :
    (writeBlock a block).answer m = .ok () ↔ ∀ q ∈ ends a block.length, q ∈ m := by
  rw [← find?_ends_eq_none, Exec.answer, writeBlock_ends]
  cases (ends a block.length).find? (· ∉ m) <;> simp

theorem after_writeBlock {block : List UInt8} (h : ∀ q ∈ ends a block.length, q ∈ m) :
    (writeBlock a block).after m = m.setBlock a block := by
  rw [Exec.after, writeBlock_ends, find?_ends_eq_none.mpr h]

/-- **What a command does.** If an address that it needs is missing, it faults there and leaves the
bank as it was. Otherwise it answers, and its bytes are laid over the bank. -/
theorem perform_eq (c : Command) (m : Memory) :
    perform c m = match c.missing m with
      | some p => .error (.outOfBounds p m.top) m
      | none => .ok (c.reply m) (m.setBlock c.target (c.stored m)) := by
  cases c with
  | check a | read a | write a b =>
    by_cases ha : a ∈ m <;>
      simp [perform, Command.missing, Command.needed, Exec.bind_apply, check_of_mem, check_of_not_mem, read_eq,
        write_eq, ha, Command.reply, Command.target, Command.stored, setBlock]
  | readWord a | writeWord a w =>
    by_cases ha : a ∈ m <;> by_cases hnext : a + 1 ∈ m <;>
      simp [perform, Command.missing, Command.needed, Exec.bind_apply, readWord_eq, writeWord_eq, ha, hnext,
        Command.reply, Command.target, Command.stored, setBlock]
  | readBlock a size =>
    simp only [perform, Command.missing, Command.needed, Exec.bind_apply, readBlock_ends]
    cases (ends a size).find? (· ∉ m) <;> rfl
  | writeBlock a block =>
    simp only [perform, Command.missing, Command.needed, Exec.bind_apply, writeBlock_ends]
    cases (ends a block.length).find? (· ∉ m) <;> rfl
  | copyBlock a size target =>
    simp only [perform, copyBlock, Command.missing, Command.needed, Exec.bind_apply, readBlock_ends,
      List.find?_append]
    cases (ends a size).find? (· ∉ m) with
    | some p => rfl
    | none =>
      simp only [writeBlock_ends, length_block, Option.none_or]
      cases (ends target (m.extent a size)).find? (· ∉ m) <;> rfl

/-! ### Refused or done -/

theorem Command.missing_eq_none_iff {c : Command} : c.missing m = none ↔ ∀ q ∈ c.needed m, q ∈ m := by
  rw [Command.missing, List.find?_eq_none]
  simp

theorem Command.exists_missing_iff {c : Command} : (∃ q, c.missing m = some q) ↔ ∃ q ∈ c.needed m, q ∉ m := by
  rw [← Option.isSome_iff_exists, Command.missing, List.find?_isSome]
  simp

theorem perform_of_missing {c : Command} (h : c.missing m = some p) :
    perform c m = .error (.outOfBounds p m.top) m := by
  rw [perform_eq, h]

theorem perform_of_none {c : Command} (h : c.missing m = none) :
    perform c m = .ok (c.reply m) (m.setBlock c.target (c.stored m)) := by
  rw [perform_eq, h]

theorem answer_eq_error_iff {c : Command} {e : Fault} :
    (perform c).answer m = .error e ↔ ∃ q, c.missing m = some q ∧ e = .outOfBounds q m.top := by
  cases hmissing : c.missing m with
  | none =>
    rw [Exec.answer_of_ok (perform_of_none hmissing)]
    simp
  | some q =>
    rw [Exec.answer_of_error (perform_of_missing hmissing)]
    simp [eq_comm]

theorem answer_eq_ok_iff {c : Command} {r : Reply} :
    (perform c).answer m = .ok r ↔ c.missing m = none ∧ r = c.reply m := by
  cases hmissing : c.missing m with
  | none =>
    rw [Exec.answer_of_ok (perform_of_none hmissing)]
    simp [eq_comm]
  | some q =>
    rw [Exec.answer_of_error (perform_of_missing hmissing)]
    simp

/-- **When an access is refused, and what it changes otherwise.** A command is refused if and only if
one of the addresses that it needs is not in the bank. The fault names the first of these, and
nothing has changed. A command that is done changes no byte outside of the block that it
stores, and never the size of the bank. Of a word that is written the second address is checked
first, so the first one is named only if it is `-1`. The slice that a block replaces is exactly
as long as the block. -/
theorem access_refused_iff (m : Memory) :
    (∀ c : Command,
      ((∃ e, (perform c).answer m = .error e) ↔ ∃ q ∈ c.needed m, ¬(0 ≤ q ∧ q ≤ m.size - 1)) ∧
      (∀ e, (perform c).answer m = .error e ↔ ∃ q, c.missing m = some q ∧ e = .outOfBounds q m.top) ∧
      (∀ e, (perform c).answer m = .error e → (perform c).after m = m) ∧
      (∀ r, (perform c).answer m = .ok r →
        ((perform c).after m).size = m.size ∧
        ∀ q, ¬(c.target ≤ q ∧ q < c.target + (c.stored m).length) →
          ((perform c).after m).byteAt q = m.byteAt q)) ∧
    (∀ a w, (Command.writeWord a w).missing m = some a → a = -1) ∧
    (∀ a block r, (perform (.writeBlock a block)).answer m = .ok r →
      (m.slice a (a + block.length)).length = block.length) := by
  refine ⟨fun c => ⟨?_, fun e => answer_eq_error_iff, fun e h => ?_, fun r h => ?_⟩, fun a w h => ?_,
    fun a block r h => ?_⟩
  · have hrefused : (∃ e, (perform c).answer m = .error e) ↔ ∃ q, c.missing m = some q := by
      simp only [answer_eq_error_iff]
      exact ⟨fun ⟨_, q, hq, _⟩ => ⟨q, hq⟩, fun ⟨q, hq⟩ => ⟨_, q, hq, rfl⟩⟩
    exact hrefused.trans Command.exists_missing_iff
  · obtain ⟨q, hq, -⟩ := answer_eq_error_iff.mp h
    exact Exec.after_of_error (perform_of_missing hq)
  · obtain ⟨hnone, -⟩ := answer_eq_ok_iff.mp h
    rw [Exec.after_of_ok (perform_of_none hnone)]
    exact ⟨size_setBlock _, fun q hq => byteAt_setBlock_of_not_mem _ hq⟩
  · simp only [Command.missing, Command.needed, List.find?_cons_eq_some, List.find?_nil] at h
    have hfirst : a + 1 ∈ m ∧ a ∉ m := by
      have hne : a + 1 ≠ a := by omega
      simpa [hne] using h
    rw [mem_iff, mem_iff] at hfirst
    omega
  · obtain ⟨hnone, -⟩ := answer_eq_ok_iff.mp h
    obtain ⟨ha, hlast⟩ := forall_mem_ends.mp (Command.missing_eq_none_iff.mp hnone)
    rw [slice_eq_block ha hlast, length_block, extent_natCast]

end Chip8.Memory

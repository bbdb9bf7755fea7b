import Chip8.Proofs.Commands
import Chip8.Proofs.LastStored

/-!
# A listing and the program that it lists

A program can be listed without being loaded. The listing takes its bytes in pairs, and what a
machine fetches after the program was loaded comes out of memory: two ways from the same bytes to
words. They agree. Line `k` shows the address of bytes `2k` and `2k + 1` and the word of the
two, and where the program was loaded at the address that the listing began with, this is the word
that is read there and that a machine fetches with PC there. A last odd byte is loaded but it
is on no line.

* `length_listing` and `getElem?_listing`: the lines of a listing, and `list_writes`: what becomes of them.
* `load_answer_eq_ok_iff` and `memory_after_load`: when a program is loaded, and what is in memory then.
* `listing_agrees_with_fetch`: the two ways side by side.
-/

namespace Chip8

/-! ### The lines -/

namespace Entry

/-- Each pair of bytes has a line. -/
theorem length_listing (location : Int) : ∀ program : List UInt8,
    (listing location program).length = program.length / 2
  | [] => rfl
  | [_] => by simp [listing]
  | high :: low :: rest => by
    rw [listing, List.length_cons, length_listing (location + 2) rest, List.length_cons, List.length_cons]
    omega

/-- Line `k` has the address and the word of pair `k`. -/
theorem getElem?_listing (location : Int) (program : List UInt8) {k : Nat} (hk : k < program.length / 2) :
    (listing location program)[k]? =
      some (.listed (location + 2 * k) (Word.join program[2 * k] program[2 * k + 1])) := by
  induction k generalizing location program with
  | zero =>
    rcases program with _ | ⟨high, _ | ⟨low, rest⟩⟩
    · simp at hk
    · simp at hk
    · simp [listing]
  | succ k ih =>
    rcases program with _ | ⟨high, _ | ⟨low, rest⟩⟩
    · simp at hk
    · simp at hk
    · have hrest : k < rest.length / 2 := by
        simp only [List.length_cons] at hk
        omega
      have hplace : location + 2 + 2 * (k : Int) = location + 2 * ((k + 1 : Nat) : Int) := by omega
      rw [listing, List.getElem?_cons_succ, ih _ _ hrest, hplace]
      rfl

end Entry

/-! ### The bytes in memory -/

namespace Memory

variable {m : Memory} {a : Int} {block : List UInt8}

/-- Two bytes of a block that was written are read as a word. -/
theorem readWord_setBlock {j : Nat} (h : ∀ q ∈ ends a block.length, q ∈ m) (hj : j + 1 < block.length) :
    (readWord (a + j)).answer (m.setBlock a block) = .ok (Word.join block[j] block[j + 1]) := by
  obtain ⟨h0, h1⟩ := (block_within h).resolve_left (by omega)
  have hfirst := byteAt_setBlock_add h0 h1 (show j < block.length by omega)
  have hsecond := byteAt_setBlock_add h0 h1 hj
  have hnext : a + ((j + 1 : Nat) : Int) = a + j + 1 := by omega
  rw [hnext] at hsecond
  rw [answer_readWord, hfirst, hsecond]
  · rw [mem_setBlock, mem_iff]
    omega
  · rw [mem_setBlock, mem_iff]
    omega

end Memory

namespace Machine

/-- A program is loaded if both of its ends are in the bank. -/
theorem load_answer_eq_ok_iff {fuel : Nat} {m : Machine} {program : List UInt8} {location : Int} :
    (perform fuel (.load program location)).answer m = .ok .done ↔
      ∀ q ∈ Memory.ends location program.length, q ∈ m.memory := by
  have hanswer : (perform fuel (.load program location)).answer m =
      ((Memory.writeBlock location program).answer m.memory).map fun _ => .done := answer_onMemory m _ _
  rw [hanswer, ← Memory.writeBlock_answer_eq_ok_iff]
  cases (Memory.writeBlock location program).answer m.memory <;> simp [Except.map]

/-- Its bytes are laid over memory then. -/
theorem memory_after_load (fuel : Nat) {m : Machine} {program : List UInt8} {location : Int}
    (h : ∀ q ∈ Memory.ends location program.length, q ∈ m.memory) :
    ((perform fuel (.load program location)).after m).memory = m.memory.setBlock location program := by
  have hafter := after_onMemory m (Memory.writeBlock location program) fun _ => .done
  rw [Memory.after_writeBlock h] at hafter
  exact congrArg Machine.memory hafter

/-- A fetch reads the word at PC. -/
theorem answer_fetch (m : Machine) : fetch.answer m = (Memory.readWord m.board.pc).answer m.memory := by
  unfold Exec.answer
  rw [fetch_apply]
  cases Memory.readWord m.board.pc m.memory <;> rfl

/-- A listing adds its lines to what was written and changes nothing else. -/
theorem list_writes (m : Machine) (program : List UInt8) (location : Int) (fuel : Nat) :
    let listed := (perform fuel (.list program location)).after m
    (perform fuel (.list program location)).answer m = .ok .done ∧
    listed.output = m.output ++ Entry.listing location program ∧
    listed.board = m.board ∧ listed.processor = m.processor ∧ listed.journal.setting = m.journal.setting :=
  ⟨rfl, Array.toList_appendList, rfl, rfl, rfl⟩

/-- **The listing of a program agrees with what is fetched once it is loaded.** Whatever bytes are listed
from whatever address on, no fault comes of it, and it writes its lines and changes nothing else. Each
pair of bytes has a line, which shows its address and its word, the high byte first. If the same bytes
can be loaded at this address, the word of each line is the one that is read there and that is
fetched with PC there, and no byte outside of those of the program has changed. -/
theorem listing_agrees_with_fetch (m : Machine) (program : List UInt8) (location : Int) (fuel : Nat) :
    let lines := Entry.listing location program
    let listed := (perform fuel (.list program location)).after m
    ((perform fuel (.list program location)).answer m = .ok .done ∧ listed.output = m.output ++ lines ∧
      listed.board = m.board ∧ listed.processor = m.processor ∧ listed.journal.setting = m.journal.setting) ∧
    lines.length = program.length / 2 ∧
    (∀ k (hk : k < program.length / 2),
      let word := Word.join program[2 * k] program[2 * k + 1]
      let entry := Entry.listed (location + 2 * k) word
      lines[k]? = some entry ∧
      word.toNat = program[2 * k].toNat * 256 + program[2 * k + 1].toNat ∧
      entry.line = Text.hex 3 (location + 2 * k) ++ "> " ++ Text.hex 4 word.toNat ++ "\n") ∧
    ((perform fuel (.load program location)).answer m = .ok .done →
      let loaded := (perform fuel (.load program location)).after m
      (∀ k (hk : k < program.length / 2),
        let word := Word.join program[2 * k] program[2 * k + 1]
        (perform fuel (.readWord (location + 2 * k))).answer loaded = .ok (.number word.toNat) ∧
        ∀ s : Machine, s.memory = loaded.memory → s.board.pc = location + 2 * k → fetch.answer s = .ok word) ∧
      ∀ c, ¬(location ≤ c ∧ c < location + program.length) → loaded.memory.byteAt c = m.memory.byteAt c) := by
  intro lines listed
  refine ⟨list_writes m program location fuel, Entry.length_listing location program, fun k hk => ?_, fun hload => ?_⟩
  · exact ⟨Entry.getElem?_listing location program hk, Word.toNat_join _ _, rfl⟩
  · intro loaded
    have hends := load_answer_eq_ok_iff.mp hload
    have hmemory : loaded.memory = m.memory.setBlock location program := memory_after_load fuel hends
    refine ⟨fun k hk => ?_, fun c hout => ?_⟩
    · intro word
      have hread : (Memory.readWord (location + 2 * k)).answer loaded.memory = .ok word := by
        rw [hmemory]
        exact Memory.readWord_setBlock hends (j := 2 * k) (by omega)
      refine ⟨?_, fun s hs hpc => ?_⟩
      · exact (answer_onMemory loaded _ _).trans (by rw [hread]; rfl)
      · rw [answer_fetch, hs, hpc, hread]
    · rw [hmemory, Memory.byteAt_setBlock_of_not_mem _ hout]

end Machine

end Chip8

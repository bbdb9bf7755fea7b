import Chip8.Machine.Basic
import Chip8.Proofs.Decoding
import Chip8.Proofs.InstructionTable
import Mathlib.Logic.ExistsUnique

/-!
# What a step does

Decoding, tracing and the instruction table put together. `decodeExecute` finds the
instruction that the opcode denotes and ends as its row in the tables says, with the
fields decoded and, on a live processor, one trace of the state before; an opcode that
denotes none is refused with nothing changed but the fields. A step fetches first.

* `decodeExecute_eq_ok_iff`: what is left by an instruction that returns.
* `decodeExecute_fails_iff`: when an instruction fails, and what it leaves then.
* `notEmulated_iff`: which opcodes are refused, and that all others reach the
  instruction that they denote.
-/

namespace Chip8.Machine

open Instruction

variable (m : Machine)

/-! ### The parts of a step -/

/-- The machine whose processor has decoded the fields of its opcode. -/
def decoded : Machine :=
  { m with processor := { m.processor with fields := Fields.ofWord m.processor.opcode } }

/-- What an instruction makes of the machine, given the board that it leaves: the fields are
those of the opcode, and a live processor has traced the state before it. -/
def leaving (i : Instruction) (b : Board) : Machine where
  board := b
  processor := m.decoded.processor
  journal := if m.processor.live then m.journal.record (.trace m.snapshot i) else m.journal

/-- The machine whose processor has fetched the word at PC. -/
def fetched : Machine :=
  { m with
    processor := { m.processor with opcode := m.memory.wordAt m.board.pc, origin := m.registers.pc } }

/-- How the execution of an instruction ends. -/
def carryOut (i : Instruction) : EStateM.Result Fault Machine Unit :=
  match execute m.processor.transferAll i m.board with
  | .ok _ b => .ok () (m.leaving i b)
  | .error e b => .error e (m.leaving i b)

variable {m} {m' : Machine} {i : Instruction} {e : Fault}

theorem onBoard_apply {α : Type} (x : Exec Board α) (m : Machine) :
    onBoard x m = match x m.board with
      | .ok a b => .ok a { m with board := b }
      | .error e b => .error e { m with board := b } := by
  rw [onBoard, Exec.within_apply]
  cases x m.board <;> rfl

theorem decodeExecute_of_denotes (h : Denotes m.processor.opcode i) :
    decodeExecute m = m.carryOut i := by
  have hdecode := decode?_eq_some_iff.mpr h
  cases hlive : m.processor.live with
  | false =>
    simp only [decodeExecute, carryOut, Exec.bind_apply, changeProcessor, Exec.modify_apply,
      Exec.get_apply, hdecode, hlive, Bool.false_eq_true, ↓reduceIte, onBoard_apply, leaving, decoded]
    cases execute m.processor.transferAll i m.board <;> rfl
  | true =>
    simp only [decodeExecute, carryOut, Exec.bind_apply, changeProcessor, Exec.modify_apply,
      Exec.get_apply, hdecode, hlive, ↓reduceIte, record, changeJournal, onBoard_apply, leaving, decoded,
      snapshot, registers]
    cases execute m.processor.transferAll i m.board <;> rfl

theorem decodeExecute_of_not_emulated (h : ¬Emulated m.processor.opcode) :
    decodeExecute m = .error (.notEmulated m.processor.opcode m.processor.origin) m.decoded := by
  have hdecode := decode?_eq_none_iff.mpr h
  simp only [decodeExecute, Exec.bind_apply, changeProcessor, Exec.modify_apply, Exec.get_apply,
    hdecode]
  rfl

theorem fetch_apply (m : Machine) :
    fetch m = match Memory.readWord m.board.pc m.memory with
      | .ok w c => .ok w { m with board := { m.board with memory := c } }
      | .error e c => .error e { m with board := { m.board with memory := c } } := by
  simp only [fetch, Exec.bind_apply, Exec.get_apply, onMemory, onBoard_apply, Board.onMemory_apply,
    memory, Board.pc, registers]
  cases Memory.readWord m.board.registers.pc.toNat m.board.memory <;> rfl

/-- A word that is in the bank is fetched and executed. -/
theorem step_of_le (h : m.board.pc + 1 ≤ m.memory.top) : step m = decodeExecute m.fetched := by
  have hread := Memory.readWord_of_le m.board.pc_nonneg h
  simp only [step, Exec.bind_apply, Exec.get_apply, changeProcessor, Exec.modify_apply, fetch_apply,
    latch]
  simp only [memory] at hread ⊢
  rw [hread]
  simp only [Memory.toNat_join_byteAt]
  rfl

/-- Otherwise a step only notes where it tried to fetch from. -/
theorem step_of_gt (h : m.memory.top < m.board.pc + 1) :
    step m = .error (.outOfBounds (max m.board.pc (m.memory.top + 1)) m.memory.top)
      { m with processor := { m.processor with origin := m.registers.pc } } := by
  have hread := Memory.readWord_of_gt m.board.pc_nonneg h
  simp only [step, Exec.bind_apply, Exec.get_apply, changeProcessor, Exec.modify_apply, fetch_apply]
  simp only [memory] at hread ⊢
  rw [hread]

/-! ### How an instruction ends -/

theorem carryOut_eq_ok_iff :
    m.carryOut i = .ok () m' ↔
      ∃ b', Performs m.processor.transferAll m.board i b' ∧ m' = m.leaving i b' := by
  constructor
  · intro h
    cases hexecute : execute m.processor.transferAll i m.board with
    | ok _ b' =>
      rw [carryOut, hexecute] at h
      cases h
      exact ⟨b', execute_eq_ok_iff.mp hexecute, rfl⟩
    | error e b' =>
      rw [carryOut, hexecute] at h
      cases h
  · rintro ⟨b', hrow, rfl⟩
    rw [carryOut, execute_eq_ok_iff.mpr hrow]

theorem carryOut_eq_error_iff :
    m.carryOut i = .error e m' ↔
      ∃ b', Refuses m.processor.transferAll m.board i e b' ∧ m' = m.leaving i b' := by
  constructor
  · intro h
    cases hexecute : execute m.processor.transferAll i m.board with
    | ok _ b' =>
      rw [carryOut, hexecute] at h
      cases h
    | error e b' =>
      rw [carryOut, hexecute] at h
      cases h
      exact ⟨b', execute_eq_error_iff.mp hexecute, rfl⟩
  · rintro ⟨b', hrow, rfl⟩
    rw [carryOut, execute_eq_error_iff.mpr hrow]

/-- **What an opcode does is the row of the instruction that it denotes.** It returns exactly
where there is such a row, and leaves the board of that row, the decoded fields and, if
the processor is live, one more trace; all else is as before. -/
theorem decodeExecute_eq_ok_iff (m m' : Machine) :
    decodeExecute m = .ok () m' ↔
      ∃ i b', Denotes m.processor.opcode i ∧ Performs m.processor.transferAll m.board i b' ∧
        m' = m.leaving i b' := by
  constructor
  · intro h
    by_cases hemulated : Emulated m.processor.opcode
    · obtain ⟨i, hi⟩ := hemulated.denotes
      rw [decodeExecute_of_denotes hi] at h
      obtain ⟨b', hrow, hm'⟩ := carryOut_eq_ok_iff.mp h
      exact ⟨i, b', hi, hrow, hm'⟩
    · rw [decodeExecute_of_not_emulated hemulated] at h
      cases h
  · rintro ⟨i, b', hi, hrow, hm'⟩
    rw [decodeExecute_of_denotes hi]
    exact carryOut_eq_ok_iff.mpr ⟨b', hrow, hm'⟩

/-- **When an instruction fails, and what it has done by then.** PC, I, the call stack and the
screen are as before. A transfer has done what lies in the bank, and a call has moved SP if
its word does not. A step fails at its fetch as well, before it has done anything. -/
theorem decodeExecute_fails_iff (m : Machine) :
    (∀ i, Denotes m.processor.opcode i →
      ((∃ e m', decodeExecute m = .error e m') ↔ Fails m.processor.transferAll m.board i) ∧
      ∀ e m', decodeExecute m = .error e m' ↔
        ∃ b', Refuses m.processor.transferAll m.board i e b' ∧ m' = m.leaving i b') ∧
    (∀ i e b', Refuses m.processor.transferAll m.board i e b' →
      (e = .stackUnderflow ∨ e = .stackOverflow ∨ ∃ a, e = .outOfBounds a m.memory.top) ∧
      b'.registers.pc = m.registers.pc ∧ b'.registers.i = m.registers.i ∧ b'.stack = m.board.stack ∧
        b'.screen = m.board.screen) ∧
    (m.board.pc + 1 ≤ m.memory.top → step m = decodeExecute m.fetched) ∧
    (m.memory.top < m.board.pc + 1 →
      step m = .error (.outOfBounds (max m.board.pc (m.memory.top + 1)) m.memory.top)
        { m with processor := { m.processor with origin := m.registers.pc } }) := by
  refine ⟨fun i hi => ?_, fun i e b' h => ⟨h.fault, h.frame⟩, step_of_le, step_of_gt⟩
  have hends : ∀ e m', decodeExecute m = .error e m' ↔
      ∃ b', Refuses m.processor.transferAll m.board i e b' ∧ m' = m.leaving i b' := by
    intro e m'
    rw [decodeExecute_of_denotes hi]
    exact carryOut_eq_error_iff
  refine ⟨?_, hends⟩
  rw [← Refuses.exists_iff]
  constructor
  · rintro ⟨e, m', h⟩
    obtain ⟨b', hrow, -⟩ := (hends e m').mp h
    exact ⟨e, b', hrow⟩
  · rintro ⟨e, b', hrow⟩
    exact ⟨e, _, (hends e _).mpr ⟨b', hrow, rfl⟩⟩

/-- A machine with three bytes of memory that is about to store six registers from address 1 on. -/
def cramped : Machine where
  board := ⟨Memory.blank 3, ⟨Vector.replicate 16 7, 1, 0x200, 0⟩, .overlay, Screen.ofAnswers []⟩
  processor := { Processor.blank false true 0x200 with opcode := 0xF555 }
  journal := Journal.ofSetting Setting.off

/-- Two registers are stored before the third one is refused. -/
theorem decodeExecute_fails_cramped :
    Denotes cramped.processor.opcode (.store 5) ∧
    decodeExecute cramped = .error (.outOfBounds 3 2)
      (cramped.leaving (.store 5)
        { cramped.board with memory := (Memory.blank 3).setBlock 1 [7, 7] }) := by
  have hdenotes : Denotes cramped.processor.opcode (.store 5) := rfl
  have hrow : Refuses false cramped.board (.store 5) _ _ := .store (by decide)
  exact ⟨hdenotes, (((decodeExecute_fails_iff cramped).1 _ hdenotes).2 _ _).mpr ⟨_, hrow, rfl⟩⟩

/-! ### Opcodes that are refused -/

/-- An instruction never reports that it is none. -/
theorem carryOut_ne_notEmulated {w : Int} {a : UInt16} :
    m.carryOut i ≠ .error (.notEmulated w a) m' := by
  intro h
  obtain ⟨b', hrow, -⟩ := carryOut_eq_error_iff.mp h
  simpa using hrow.fault

theorem not_emulated_of_decodeExecute {w : Int} {a : UInt16}
    (h : decodeExecute m = .error (.notEmulated w a) m') :
    ¬Emulated m.processor.opcode := by
  intro hemulated
  obtain ⟨i, hi⟩ := hemulated.denotes
  rw [decodeExecute_of_denotes hi] at h
  exact carryOut_ne_notEmulated h

/-- **The opcodes that are refused are those that are no instruction.** Every other opcode reaches
the one instruction that it denotes: the key of a second look is above those of the first
and leads to no further look. -/
theorem notEmulated_iff (m : Machine) :
    ((∃ w a m', decodeExecute m = .error (.notEmulated w a) m') ↔ ¬Emulated m.processor.opcode) ∧
    (¬Emulated m.processor.opcode →
      decodeExecute m = .error (.notEmulated m.processor.opcode m.processor.origin) m.decoded) ∧
    (Emulated m.processor.opcode →
      ∃! i, Denotes m.processor.opcode i ∧ decodeExecute m = m.carryOut i) ∧
    (∀ part key, look (Fields.ofWord m.processor.opcode).op.val = some (.family part) →
      part.key? m.processor.opcode = some key → 0x10 ≤ key ∧ ∀ part', look key ≠ some (.family part')) ∧
    (∀ w a m', step m = .error (.notEmulated w a) m' →
      w = m.memory.wordAt m.board.pc ∧ a = m.registers.pc ∧ ¬Emulated w ∧ m' = m.fetched.decoded ∧
        m'.registers.pc = a) := by
  refine ⟨⟨?_, fun h => ⟨_, _, _, decodeExecute_of_not_emulated h⟩⟩, decodeExecute_of_not_emulated,
    ?_, ?_, ?_⟩
  · rintro ⟨w, a, m', h⟩
    exact not_emulated_of_decodeExecute h
  · intro h
    obtain ⟨i, hi⟩ := h.denotes
    exact ⟨i, ⟨hi, decodeExecute_of_denotes hi⟩, fun j hj => hj.1.unique hi⟩
  · intro part key hlook hkey
    obtain ⟨habove, -⟩ := second_key (look_eq_some_iff.mp hlook) hkey
    refine ⟨habove, fun part' h => ?_⟩
    have := family_key_lt (look_eq_some_iff.mp h)
    omega
  · intro w a m' h
    by_cases hfit : m.board.pc + 1 ≤ m.memory.top
    · rw [step_of_le hfit] at h
      have hnone := not_emulated_of_decodeExecute h
      rw [decodeExecute_of_not_emulated hnone] at h
      cases h
      exact ⟨rfl, rfl, hnone, rfl, rfl⟩
    · rw [step_of_gt (by omega)] at h
      cases h

end Chip8.Machine

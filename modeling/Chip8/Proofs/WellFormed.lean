import Chip8.Proofs.Assignments
import Chip8.Proofs.CrashReport

/-!
# Well-formed machines

Whatever is done to a machine, the bank keeps the size that it was built with, and the fields of
the processor are those of its word. Both hold after any commands, in any order, with any
integers, also after those that fault. The fields are only out of date between the two statements
that replace the word and them, and no fault comes there.

* `wellFormed_after_decodeExecute`: what decoding restores and nothing after it changes.
* `keeps_perform`: what all commands keep, and `wellFormed_afterCommands`: any number of them.
* `machine_stays_well_formed`: this, and that every number stays within its room.
-/

namespace Chip8.Machine

open Exec

variable {m : Machine} {n : Int} {α : Type}

/-! ### What every command keeps -/

/-- The bank has this size, and the fields of the processor are those of its word. -/
structure WellFormed (n : Int) (m : Machine) : Prop where
  size_eq : m.memory.size = n
  fields_eq : m.processor.fields = Fields.ofWord m.processor.opcode

theorem keeps_onBoard {x : Exec Board α} (hx : Keeps (Board.Sized n) x) : Keeps (WellFormed n) (onBoard x) :=
  hx.within (fun _ h => h.size_eq) fun _ _ hsize h => ⟨hsize, h.fields_eq⟩

theorem keeps_onMemory {x : Exec Memory α} (hx : Keeps (·.size = n) x) : Keeps (WellFormed n) (onMemory x) :=
  keeps_onBoard (Board.keeps_onMemory hx)

/-- What is reported is no part of this. -/
theorem WellFormed.reported (j : Journal) (h : WellFormed n m) : WellFormed n { m with journal := j } :=
  ⟨h.size_eq, h.fields_eq⟩

/-- Decoding replaces the fields by those of the word, and what follows changes neither. -/
theorem after_decodeExecute (m : Machine) :
    (decodeExecute.after m).processor = m.decoded.processor ∧
    (decodeExecute.after m).memory.size = m.memory.size := by
  unfold Exec.after
  by_cases hemulated : Instruction.Emulated m.processor.opcode
  · obtain ⟨i, hi⟩ := hemulated.denotes
    have hexecute := Board.keeps_execute m.processor.transferAll i m.board rfl
    unfold Exec.after at hexecute
    rw [decodeExecute_of_denotes hi, carryOut]
    cases hend : execute m.processor.transferAll i m.board <;> rw [hend] at hexecute <;>
      exact ⟨rfl, hexecute⟩
  · rw [decodeExecute_of_not_emulated hemulated]
    exact ⟨rfl, rfl⟩

/-- **To decode puts the fields right**, whatever they were before. -/
theorem wellFormed_after_decodeExecute (h : m.memory.size = n) : WellFormed n (decodeExecute.after m) := by
  obtain ⟨hprocessor, hsize⟩ := after_decodeExecute m
  refine ⟨hsize.trans h, ?_⟩
  rw [hprocessor]
  rfl

theorem keeps_executeOpcode (opcode : Int) : Keeps (WellFormed n) (executeOpcode opcode) :=
  fun _ h => wellFormed_after_decodeExecute h.size_eq

theorem keeps_step : Keeps (WellFormed n) step := by
  intro m h
  unfold Exec.after
  rcases Int.lt_or_le m.memory.top (m.board.pc + 1) with hend | hfit
  · -- the word is not fetched, so neither it nor its fields are replaced
    rw [step_of_gt hend]
    exact ⟨h.size_eq, h.fields_eq⟩
  · rw [step_of_le hfit]
    exact wellFormed_after_decodeExecute h.size_eq

theorem keeps_steps (k : Nat) : Keeps (WellFormed n) (steps k) := by
  induction k with
  | zero => exact keeps_pure ()
  | succ k ih => exact keeps_step.bind fun _ => ih

theorem keeps_run (start limit : Option Int) (fuel : Nat) : Keeps (WellFormed n) (run start limit fuel) := by
  have hreporting : ∀ k, Keeps (WellFormed n) (reporting (steps k)) := fun k =>
    (keeps_steps k).tryCatch fun _ => (keeps_reportCrash (fun _ => WellFormed.reported) _).bind fun _ => keeps_throw _
  intro m h
  have hstart : WellFormed n (m.startingAt start) := by
    cases start with
    | none => exact h
    | some a => exact ⟨h.size_eq, h.fields_eq⟩
  unfold Exec.after
  rw [run_apply]
  exact (hreporting _).replying _ _ hstart

/-- **Every command keeps a machine well-formed.** -/
theorem keeps_perform (fuel : Nat) (c : Command) : Keeps (WellFormed n) (perform fuel c) := by
  cases c with
  | readByte | readWord | readBlock | checkRegister | readRegister | savedAddresses | fetch | tracing | describe =>
    exact keeps_of_looks fuel rfl
  | setTracing | note | reportCrash | list => exact keeps_of_reports (fun _ => WellFormed.reported) fuel rfl
  | load program location => exact (keeps_onMemory (Memory.keeps_size_writeBlock location program)).replying _
  | writeByte a b => exact (keeps_onMemory (Memory.keeps_size_write a b)).replying _
  | writeWord a w => exact (keeps_onMemory (Memory.keeps_size_writeWord a w)).replying _
  | writeRegister => exact (keeps_onBoard (Board.keeps_onRegisters _)).replying _
  | setI | setPC | setSP | advance => exact (keeps_onBoard (Board.keeps_move _)).replying _
  | push address => exact (keeps_onBoard (Board.keeps_push address)).replying _
  | pop => exact (keeps_onBoard Board.keeps_pop).replying _
  | useStack stack => exact (keeps_onBoard (Board.keeps_replaceStack stack)).replying _
  | newProcessor transferAll => exact fun m h => ⟨h.size_eq, rfl⟩
  | step => exact keeps_step.replying _
  | execute opcode => exact (keeps_executeOpcode opcode).replying _
  | run start limit => exact (keeps_run start limit fuel).replying _

theorem wellFormed_afterCommands (fuel : Nat) (h : WellFormed n m) (cs : List Command) :
    WellFormed n (afterCommands fuel m cs) := by
  induction cs generalizing m with
  | nil => exact h
  | cons c cs ih => exact ih (keeps_perform fuel c m h)

/-! ### Any commands -/

/-- The word of the processor is the opcode that it was given, or the one that was fetched. -/
theorem opcode_after_execute (fuel : Nat) (m : Machine) (opcode : Int) :
    ((perform fuel (.execute opcode)).after m).processor.opcode = opcode := by
  have hperform : (perform fuel (.execute opcode)).after m =
      decodeExecute.after { m with processor := { m.processor with opcode := opcode } } := by
    rw [perform, after_bind_pure]
    rfl
  rw [hperform, (after_decodeExecute _).1]
  rfl

theorem opcode_after_step (fuel : Nat) (m : Machine) :
    ((perform fuel .step).after m).processor.opcode =
      if m.board.pc + 1 ≤ m.memory.top then m.memory.wordAt m.board.pc else m.processor.opcode := by
  rw [perform, after_bind_pure]
  exact (processor_after_step m).2

/-- **A machine stays well-formed.** Whatever commands are given to a machine with a new processor, of
which any may fault: there are sixteen registers, every register, pointer and cell holds a number
that it has room for, the bank has the size that it had, and the fields of the processor are those
of its word. The word is the last opcode that was given, also if it is no instruction, or the last
one that was fetched, and a fetch that faults replaces neither it nor its fields.

It stays so because every command cuts what it assigns to the room of the place: the integers that a
caller gives and those that an instruction computes. No other number changes. -/
theorem machine_stays_well_formed (board : Board) (transferAll live : Bool) (origin : UInt16) (journal : Journal)
    (fuel : Nat) (cs : List Command) :
    let s := afterCommands fuel ⟨board, Processor.blank transferAll live origin, journal⟩ cs
    s.registers.v.toList.length = 16 ∧ (∀ p, 0 ≤ s.board.number p ∧ s.board.number p < p.room) ∧
    s.memory.size = board.memory.size ∧ s.memory.cells.size = board.memory.cells.size ∧
    s.processor.fields = Fields.ofWord s.processor.opcode ∧
    (∀ opcode, ((perform fuel (.execute opcode)).after s).processor.opcode = opcode) ∧
    (((perform fuel .step).after s).processor.opcode =
      if s.board.pc + 1 ≤ s.memory.top then s.memory.wordAt s.board.pc else s.processor.opcode) ∧
    (∀ c : Command, c.isDirect = true → Assigns (s.assigned c) (perform fuel c) s) ∧
    (∀ c i, s.Executes c i → Assigns (s.board.executed s.processor.transferAll i) (perform fuel c) s) ∧
    ∀ c : Command, c.isInstruction = true → (∀ i, ¬s.Executes c i) →
      Assigns (fun _ => none) (perform fuel c) s := by
  intro s
  have hnew : WellFormed board.memory.size ⟨board, Processor.blank transferAll live origin, journal⟩ :=
    ⟨rfl, rfl⟩
  obtain ⟨hsize, hfields⟩ := wellFormed_afterCommands fuel hnew cs
  have hcells : s.memory.cells.size = board.memory.cells.size := by
    rw [s.memory.size_cells, board.memory.size_cells, hsize]
  exact ⟨Vector.length_toList, s.board.number_mem, hsize, hcells, hfields, opcode_after_execute fuel s,
    opcode_after_step fuel s, fun _ hc => assigns_perform fuel hc, fun _ _ hi => assigns_of_executes fuel hi,
    fun _ hc hnone => assigns_of_not_executes fuel hc hnone⟩

/-- A push that wraps SP, of an integer that is no word. -/
example :
    let m : Machine := ⟨⟨Memory.blank 4, Registers.initial.setSP (-1), .overlay, Screen.ofAnswers []⟩,
      Processor.blank false false 0, Journal.ofSetting Setting.off⟩
    let b := ((perform 0 (.push (-2))).after m).board
    (b.number .sp, b.number (.cell 1), b.number (.cell 2)) = (1, 0xFF, 0xFE) := by decide +kernel

end Chip8.Machine

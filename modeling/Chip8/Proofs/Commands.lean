import Chip8.Machine.Monitor
import Chip8.Proofs.TraceRecord

/-!
# Commands in a row

A caller gives a machine one command after the other. `replies` is what is answered, and
`afterCommands` the machine that is left. A command that faults leaves what it has done, and the
next one goes on from there. The commands that only concern the board do there what the
operation of the board does. A step and an opcode that a caller chose do what the instruction does
that they come to, and leave the board alone where they come to none.
-/

namespace Chip8.Machine

/-- What the commands answer, one after the other. -/
def replies (fuel : Nat) (m : Machine) : List Command → List (Except Fault Reply)
  | [] => []
  | c :: cs => (perform fuel c).answer m :: replies fuel ((perform fuel c).after m) cs

/-- The machine after the commands. One that faults leaves what it has done, and the next one
goes on from there. -/
def afterCommands (fuel : Nat) (m : Machine) : List Command → Machine
  | [] => m
  | c :: cs => afterCommands fuel ((perform fuel c).after m) cs

variable (fuel : Nat) (m : Machine)

theorem replies_append (cs ds : List Command) :
    replies fuel m (cs ++ ds) = replies fuel m cs ++ replies fuel (afterCommands fuel m cs) ds := by
  induction cs generalizing m with
  | nil => rfl
  | cons c cs ih => rw [List.cons_append, replies, ih, replies, afterCommands, List.cons_append]

/-! ### Commands for the memory -/

section

variable {α : Type} (x : Exec Memory α) (f : α → Reply)

/-- A command that does something in memory answers with what comes of it there. -/
theorem answer_onMemory : (onMemory x >>= fun a => pure (f a)).answer m = (x.answer m.memory).map f := by
  rw [Exec.answer_bind_pure, onMemory, onBoard, Board.onMemory, Exec.answer_within, Exec.answer_within]
  rfl

/-- It changes nothing but memory. -/
theorem after_onMemory : (onMemory x >>= fun a => pure (f a)).after m =
    { m with board := { m.board with memory := x.after m.memory } } := by
  rw [Exec.after_bind_pure, onMemory, onBoard, Board.onMemory, Exec.after_within, Exec.after_within]
  rfl

end

/-! ### Commands for the call stack -/

theorem perform_push (a : Int) :
    perform fuel (.push a) m = match Board.push a m.board with
      | .ok _ b => .ok .done { m with board := b }
      | .error e b => .error e { m with board := b } := by
  rw [perform, Exec.bind_apply, onBoard_apply]
  cases Board.push a m.board <;> rfl

theorem perform_pop :
    perform fuel .pop m = match Board.pop m.board with
      | .ok a b => .ok (.number a) { m with board := b }
      | .error e b => .error e { m with board := b } := by
  rw [perform, Exec.bind_apply, onBoard_apply]
  cases Board.pop m.board <;> rfl

theorem perform_step :
    perform fuel .step m = match step m with
      | .ok _ s => .ok .done s
      | .error e s => .error e s := by
  rw [perform, Exec.bind_apply]
  cases step m <;> rfl

theorem perform_execute (opcode : Int) :
    perform fuel (.execute opcode) m =
      match decodeExecute { m with processor := { m.processor with opcode := opcode } } with
      | .ok _ s => .ok .done s
      | .error e s => .error e s := by
  rw [perform, Exec.bind_apply, executeOpcode, Exec.bind_apply]
  dsimp only [latch, changeProcessor, Exec.modify_apply]
  cases decodeExecute { m with processor := { m.processor with opcode := opcode } } <;> rfl

/-! ### Commands that execute an instruction -/

section

open Instruction

variable {m : Machine} {c : Command} {i : Instruction}

/-- Whether a command executes one instruction, if it comes to one. -/
def Command.isInstruction : Command → Bool
  | .step | .execute _ => true
  | _ => false

/-- The command executes this instruction: the step comes to it, or the opcode is it. -/
def Executes (m : Machine) : Command → Instruction → Prop
  | .step, i => m.Reaches i
  | .execute opcode, i => Denotes opcode i
  | _, _ => False

theorem Executes.unique {j : Instruction} (hi : m.Executes c i) (hj : m.Executes c j) : i = j := by
  cases c with
  | step => exact hi.2.unique hj.2
  | execute opcode => exact Denotes.unique hi hj
  | _ => exact hi.elim

/-- **A command that executes an instruction does with the board what the instruction does.** -/
theorem perform_of_executes (fuel : Nat) (h : m.Executes c i) :
    (perform fuel c).answer m = ((execute m.processor.transferAll i).answer m.board).map (fun _ => .done) ∧
    ((perform fuel c).after m).board = (execute m.processor.transferAll i).after m.board ∧
    ((perform fuel c).after m).processor.transferAll = m.processor.transferAll := by
  unfold Exec.answer Exec.after
  cases c with
  | step =>
    have hends := perform_step fuel m
    rw [step_of_reaches h, carryOut] at hends
    rw [hends]
    dsimp only [fetched]
    cases execute m.processor.transferAll i m.board <;> exact ⟨rfl, rfl, rfl⟩
  | execute opcode =>
    have hends := perform_execute fuel m opcode
    rw [decodeExecute_of_denotes (m := { m with processor := { m.processor with opcode := opcode } }) h,
      carryOut] at hends
    rw [hends]
    dsimp only
    cases execute m.processor.transferAll i m.board <;> exact ⟨rfl, rfl, rfl⟩
  | _ => exact h.elim

/-- One that comes to no instruction leaves the board alone. -/
theorem perform_of_not_executes (fuel : Nat) (hc : c.isInstruction = true) (h : ∀ i, ¬m.Executes c i) :
    ((perform fuel c).after m).board = m.board ∧
    ((perform fuel c).after m).processor.transferAll = m.processor.transferAll := by
  unfold Exec.after
  cases c with
  | step =>
    have hperform := perform_step fuel m
    have hends := step_ends m
    generalize step m = r at hperform hends
    rw [hperform]
    cases hends with
    | unfetched | unknown => exact ⟨rfl, rfl⟩
    | performed hfit hi | refused hfit hi => exact absurd ⟨hfit, hi⟩ (h _)
  | execute opcode =>
    have hnone : ¬Emulated opcode := fun hemulated => by
      obtain ⟨i, hi⟩ := hemulated.denotes
      exact h i hi
    have hperform := perform_execute fuel m opcode
    rw [decodeExecute_of_not_emulated (m := { m with processor := { m.processor with opcode := opcode } })
      hnone] at hperform
    rw [hperform]
    exact ⟨rfl, rfl⟩
  | _ => cases hc

/-- An instruction that does not fail performs. -/
theorem performs_of_executes (fuel : Nat) (h : m.Executes c i) (hok : ¬Fails m.processor.transferAll m.board i) :
    (perform fuel c).answer m = .ok .done ∧
    Performs m.processor.transferAll m.board i ((perform fuel c).after m).board := by
  obtain ⟨hanswer, hboard, -⟩ := perform_of_executes fuel h
  obtain ⟨b, hrow⟩ | ⟨e, b, hrow⟩ := performs_or_refuses m.processor.transferAll m.board i
  · have hexecute := execute_of_performs hrow
    rw [Exec.answer_of_ok hexecute] at hanswer
    rw [Exec.after_of_ok hexecute] at hboard
    exact ⟨hanswer, hboard ▸ hrow⟩
  · exact absurd (Refuses.exists_iff.mp ⟨e, b, hrow⟩) hok

end

end Chip8.Machine

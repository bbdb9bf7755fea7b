import Chip8.Proofs.Stepping

/-!
# Steps in a row

A step ends in one of four ways. `StepEnds` has a row for each of them, with the machine
that is left, and `step_ends` says that there is no other. A proof about steps is by cases
on these rows and, where an instruction was reached, on its row in the tables.

Steps are followed in two manners. `afterSteps` takes them whether they fault or not, as a
caller does who goes on after a fault. `steps`, and with it a run, stops at the first fault.
They are the same as long as all steps complete:

* `steps_eq_ok_iff`: so many steps succeed where each of them completes.
* `steps_eq_error_iff`: they fail with the first step that does not.
* `run_apply`: a run is so many steps, from where it starts, with a report of a fault.
-/

namespace Chip8.Machine

open Instruction

/-! ### One step -/

/-- How a step of the machine may end. -/
inductive StepEnds (m : Machine) : EStateM.Result Fault Machine Unit → Prop
  /-- The word at PC is not in the bank. -/
  | unfetched (hend : m.memory.top < m.board.pc + 1) :
      StepEnds m (.error (.outOfBounds (max m.board.pc (m.memory.top + 1)) m.memory.top)
        { m with processor := { m.processor with origin := m.registers.pc } })
  /-- The word is no instruction. -/
  | unknown (hfit : m.board.pc + 1 ≤ m.memory.top) (h : ¬Emulated (m.memory.wordAt m.board.pc)) :
      StepEnds m (.error (.notEmulated (m.memory.wordAt m.board.pc) m.registers.pc) m.fetched.decoded)
  /-- The instruction performs. -/
  | performed {i : Instruction} {b : Board} (hfit : m.board.pc + 1 ≤ m.memory.top)
      (hi : Denotes (m.memory.wordAt m.board.pc) i) (hrow : Performs m.processor.transferAll m.board i b) :
      StepEnds m (.ok () (m.fetched.leaving i b))
  /-- The instruction fails. -/
  | refused {i : Instruction} {e : Fault} {b : Board} (hfit : m.board.pc + 1 ≤ m.memory.top)
      (hi : Denotes (m.memory.wordAt m.board.pc) i)
      (hrow : Refuses m.processor.transferAll m.board i e b) :
      StepEnds m (.error e (m.fetched.leaving i b))

/-- **A step ends in one of four ways.** -/
theorem step_ends (m : Machine) : StepEnds m (step m) := by
  rcases Int.lt_or_le m.memory.top (m.board.pc + 1) with hend | hfit
  · rw [step_of_gt hend]
    exact .unfetched hend
  rw [step_of_le hfit]
  by_cases hemulated : Emulated (m.memory.wordAt m.board.pc)
  · obtain ⟨i, hi⟩ := hemulated.denotes
    rw [decodeExecute_of_denotes (m := m.fetched) hi]
    obtain ⟨b, hrow⟩ | ⟨e, b, hrow⟩ := performs_or_refuses m.processor.transferAll m.board i
    · rw [carryOut_eq_ok_iff (m := m.fetched).mpr ⟨b, hrow, rfl⟩]
      exact .performed hfit hi hrow
    · rw [carryOut_eq_error_iff (m := m.fetched).mpr ⟨b, hrow, rfl⟩]
      exact .refused hfit hi hrow
  · rw [decodeExecute_of_not_emulated (m := m.fetched) hemulated]
    exact .unknown hfit hemulated

variable {m m' : Machine} {e : Fault}

/-- A step that returns has performed the instruction at PC. -/
theorem performs_of_step (h : step m = .ok () m') :
    ∃ i, Denotes (m.memory.wordAt m.board.pc) i ∧
      Performs m.processor.transferAll m.board i m'.board := by
  have hends := step_ends m
  rw [h] at hends
  cases hends with
  | performed _ hi hrow => exact ⟨_, hi, hrow⟩

/-- Whatever a step does, the board it leaves is the one before or that of a row. -/
theorem board_after_step (m : Machine) :
    (step.after m).board = m.board ∨
      m.board.pc + 1 ≤ m.memory.top ∧
        ((∃ i, Performs m.processor.transferAll m.board i (step.after m).board) ∨
          ∃ i e, Refuses m.processor.transferAll m.board i e (step.after m).board) := by
  unfold Exec.after
  have hends := step_ends m
  generalize step m = r at hends
  cases hends with
  | unfetched => exact .inl rfl
  | unknown => exact .inl rfl
  | performed hfit _ hrow => exact .inr ⟨hfit, .inl ⟨_, hrow⟩⟩
  | refused hfit _ hrow => exact .inr ⟨hfit, .inr ⟨_, _, hrow⟩⟩

/-- A word that is in the bank is fetched. -/
theorem fetch_of_le (hfit : m.board.pc + 1 ≤ m.memory.top) :
    fetch m = .ok (Word.join (m.memory.byteAt m.board.pc) (m.memory.byteAt (m.board.pc + 1))) m := by
  rw [fetch_apply, Memory.readWord_of_le m.board.pc_nonneg hfit]
  rfl

/-- Otherwise the fetch faults at the first byte that is missing. -/
theorem fetch_of_gt (hend : m.memory.top < m.board.pc + 1) :
    fetch m = .error (.outOfBounds (max m.board.pc (m.memory.top + 1)) m.memory.top) m := by
  rw [fetch_apply, Memory.readWord_of_gt m.board.pc_nonneg hend]
  rfl

/-- The fault of a fetch is the fault of the step. -/
theorem step_fault_of_fetch (h : fetch.answer m = .error e) :
    m.memory.top < m.board.pc + 1 ∧ step.answer m = .error e := by
  rcases Int.lt_or_le m.memory.top (m.board.pc + 1) with hend | hfit
  · rw [Exec.answer_of_error (fetch_of_gt hend)] at h
    cases h
    exact ⟨hend, Exec.answer_of_error (step_of_gt hend)⟩
  · rw [Exec.answer_of_ok (fetch_of_le hfit)] at h
    cases h

/-! ### Steps that may fault -/

/-- The machine after so many steps. A step that faults counts as one, and the next step goes
on from what it left. -/
def afterSteps (m : Machine) : Nat → Machine
  | 0 => m
  | n + 1 => Machine.step.after (m.afterSteps n)

/-- The first step may be taken apart from the others. -/
theorem afterSteps_succ (m : Machine) (n : Nat) :
    m.afterSteps (n + 1) = (step.after m).afterSteps n := by
  induction n with
  | zero => rfl
  | succ n ih => rw [afterSteps, ih, afterSteps]

/-- What every step keeps, faulting or not, is kept by all of them. -/
theorem afterSteps_induction {P : Machine → Prop} (hstep : ∀ m, P m → P (step.after m)) (h : P m)
    (n : Nat) : P (m.afterSteps n) := by
  induction n with
  | zero => exact h
  | succ n ih => exact hstep _ ih

/-- No step changes the size of the bank. -/
theorem top_after_step (m : Machine) : (step.after m).memory.top = m.memory.top := by
  rcases board_after_step m with hsame | ⟨-, ⟨i, hrow⟩ | ⟨i, e, hrow⟩⟩
  · exact congrArg (fun b => b.memory.top) hsame
  · exact hrow.top_eq
  · exact hrow.top_eq

theorem top_afterSteps (m : Machine) (n : Nat) : (m.afterSteps n).memory.top = m.memory.top :=
  afterSteps_induction (P := fun s => s.memory.top = m.memory.top)
    (fun s hs => (top_after_step s).trans hs) rfl n

/-- Each of the first `n` steps completes. -/
def Completes (n : Nat) (m : Machine) : Prop := ∀ j < n, step.answer (m.afterSteps j) = .ok ()

theorem Completes.mono {n k : Nat} (h : Completes n m) (hle : k ≤ n) : Completes k m :=
  fun j hj => h j (Nat.lt_of_lt_of_le hj hle)

theorem completes_zero : Completes 0 m := fun _ hj => absurd hj (Nat.not_lt_zero _)

theorem completes_succ_iff {n : Nat} :
    Completes (n + 1) m ↔ step.answer m = .ok () ∧ Completes n (step.after m) := by
  constructor
  · intro h
    refine ⟨h 0 (Nat.succ_pos n), fun j hj => ?_⟩
    rw [← afterSteps_succ]
    exact h (j + 1) (Nat.succ_lt_succ hj)
  · rintro ⟨hfirst, hrest⟩ j hj
    cases j with
    | zero => exact hfirst
    | succ j =>
      rw [afterSteps_succ]
      exact hrest j (Nat.lt_of_succ_lt_succ hj)

/-- The step after those that complete, if it does not complete, is the first one that faults. -/
theorem completes_or_halts (n : Nat) (m : Machine) :
    Completes n m ∨ ∃ k < n, Completes k m ∧ ∃ e, step.answer (m.afterSteps k) = .error e := by
  induction n with
  | zero => exact .inl completes_zero
  | succ n ih =>
    rcases ih with hall | ⟨k, hk, hhalts⟩
    · cases hstep : step.answer (m.afterSteps n) with
      | ok u =>
        refine .inl fun j hj => ?_
        rcases Nat.lt_succ_iff_lt_or_eq.mp hj with hlt | rfl
        · exact hall j hlt
        · exact hstep
      | error e => exact .inr ⟨n, Nat.lt_succ_self n, hall, e, hstep⟩
    · exact .inr ⟨k, Nat.lt_succ_of_lt hk, hhalts⟩

/-! ### Steps up to the first fault -/

/-- So many steps succeed where each of them completes. -/
theorem steps_eq_ok_iff {n : Nat} : steps n m = .ok () m' ↔ Completes n m ∧ m' = m.afterSteps n := by
  induction n generalizing m with
  | zero =>
    constructor
    · intro h
      cases h
      exact ⟨completes_zero, rfl⟩
    · rintro ⟨-, rfl⟩
      rfl
  | succ n ih =>
    rw [completes_succ_iff, afterSteps_succ, and_assoc, ← ih, steps]
    cases hstep : step m with
    | ok u m₁ =>
      rw [Exec.bind_eq_ok hstep, Exec.answer_of_ok hstep, Exec.after_of_ok hstep]
      simp
    | error e m₁ =>
      rw [Exec.bind_eq_error hstep, Exec.answer_of_error hstep]
      simp

/-- The first step that does not complete ends them. -/
theorem steps_of_halts {n k : Nat} (hk : k < n) (hbefore : Completes k m)
    (hhalts : step (m.afterSteps k) = .error e m') : steps n m = .error e m' := by
  induction k generalizing n m with
  | zero =>
    obtain ⟨n, rfl⟩ := Nat.exists_eq_succ_of_ne_zero (Nat.ne_zero_of_lt hk)
    exact Exec.bind_eq_error hhalts
  | succ k ih =>
    obtain ⟨n, rfl⟩ := Nat.exists_eq_succ_of_ne_zero (Nat.ne_zero_of_lt hk)
    obtain ⟨hfirst, hrest⟩ := completes_succ_iff.mp hbefore
    rw [afterSteps_succ] at hhalts
    rw [steps, Exec.bind_eq_ok (Exec.eq_ok_of_answer hfirst)]
    exact ih (Nat.lt_of_succ_lt_succ hk) hrest hhalts

/-- So many steps fail where there is a first one that does not complete, and as it does. -/
theorem steps_eq_error_iff {n : Nat} :
    steps n m = .error e m' ↔ ∃ k < n, Completes k m ∧ step (m.afterSteps k) = .error e m' := by
  constructor
  · intro h
    rcases completes_or_halts n m with hall | ⟨k, hk, hbefore, e', hhalts⟩
    · rw [steps_eq_ok_iff.mpr ⟨hall, rfl⟩] at h
      cases h
    · have hstep := Exec.eq_error_of_answer hhalts
      rw [steps_of_halts hk hbefore hstep] at h
      cases h
      exact ⟨k, hk, hbefore, hstep⟩
  · rintro ⟨k, hk, hbefore, hstep⟩
    exact steps_of_halts hk hbefore hstep

/-! ### A run -/

/-- The machine with PC at `start`, if that is given. -/
def startingAt (m : Machine) : Option Int → Machine
  | some a => { m with board := { m.board with registers := m.registers.setPC a } }
  | none => m

/-- How many steps a run is followed for. -/
def runLength (limit : Option Int) (fuel : Nat) : Nat := (limit.map Int.toNat).getD fuel

/-- How a run ends that no fault stops. -/
def RunEnd.ofLimit (limit : Option Int) : RunEnd :=
  (limit.map fun n => RunEnd.finished n.toNat).getD .unfinished

theorem run_apply (start limit : Option Int) (fuel : Nat) (m : Machine) :
    run start limit fuel m = (do
      reporting (steps (runLength limit fuel))
      return RunEnd.ofLimit limit : Exec Machine RunEnd) (m.startingAt start) := by
  cases start <;> cases limit <;> rfl

section

variable {start limit : Option Int} {fuel : Nat}

/-- A run whose steps all complete ends as its limit says. -/
theorem run_of_ok (h : steps (runLength limit fuel) (m.startingAt start) = .ok () m') :
    run start limit fuel m = .ok (.ofLimit limit) m' := by
  rw [run_apply, Exec.bind_apply, reporting, Exec.tryCatch_apply, h]
  rfl

/-- A run that a fault stops ends as the report of the fault does, and with this fault unless
the report has one of its own. -/
theorem run_of_error (h : steps (runLength limit fuel) (m.startingAt start) = .error e m') :
    run start limit fuel m = match reportCrash e.message m' with
      | .ok _ s => .error e s
      | .error e' s => .error e' s := by
  rw [run_apply, Exec.bind_apply, reporting, Exec.tryCatch_apply, h]
  simp only [Exec.bind_apply, Exec.throw_apply]
  cases reportCrash e.message m' <;> rfl

/-- A run whose steps all complete leaves what they leave. -/
theorem run_after_of_ok (h : steps (runLength limit fuel) (m.startingAt start) = .ok () m') :
    (run start limit fuel).after m = m' :=
  Exec.after_of_ok (run_of_ok h)

/-- A run that a fault stops leaves what the report of the fault leaves. -/
theorem run_after_of_error (h : steps (runLength limit fuel) (m.startingAt start) = .error e m') :
    (run start limit fuel).after m = (reportCrash e.message).after m' := by
  unfold Exec.after
  rw [run_of_error h]
  cases reportCrash e.message m' <;> rfl

end

end Chip8.Machine

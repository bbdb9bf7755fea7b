import Chip8.Proofs.Overlay
import Chip8.Proofs.TraceRecord

/-!
# How a run is stopped

A fault of a step stops the run. The run adds its report to what was written and passes the
fault on; the board and the processor are left as the step has left them. The report has a line
for the fault and then shows the machine with its call stack, and here it may fault itself. A
list of return addresses can always be read. An overlay is read word by word from 2 up to SP,
and SP may point past the end of a small bank. Then the report ends with its first line, and the
fault of the reading gets out in the place of the one that was to be reported.

* `savedAddresses_of_readable` and `savedAddresses_of_not_readable`: when the call stack can be
  read, what is found there, and at which address the reading faults otherwise.
* `reportCrash_of_readable` and `reportCrash_of_not_readable`: what a report adds.
* `crash_boundary`: what gets out of a run that is stopped, and what it leaves.
-/

namespace Chip8

/-! ### Reading the call stack -/

namespace Memory

/-- The words at 2, 4 and so on, `n` of them. -/
def words (m : Memory) (n : Nat) : List Int := (List.range n).map fun (k : Nat) => m.wordAt (2 * (k + 1))

theorem length_words (m : Memory) (n : Nat) : (m.words n).length = n := by
  rw [words, List.length_map, List.length_range]

theorem words_succ (m : Memory) (n : Nat) : m.words (n + 1) = m.words n ++ [m.wordAt (2 * (n + 1))] := by
  simp only [words, List.range_succ, List.map_append, List.map_cons, List.map_nil]

/-- A bank holds its own words as return addresses. -/
theorem holds_words (m : Memory) (n : Nat) : m.Holds (m.words n).reverse := by
  induction n with
  | zero => exact trivial
  | succ n ih =>
    rw [words_succ, List.reverse_append, List.reverse_singleton, List.singleton_append]
    exact ⟨by rw [List.length_reverse, length_words], ih⟩

end Memory

namespace Board

variable {b : Board}

/-- What a reader finds on the call stack: the addresses of a list or the words of an overlay up
to SP, oldest first. -/
def stackView (b : Board) : List Int :=
  match b.stack with
  | .dedicated _ addresses => addresses.reverse
  | .overlay => b.memory.words (b.registers.sp.toNat / 2)

/-- The call stack can be read: it is a list, SP is below the first word of an overlay, or the
last word that it points to is in the bank. -/
def StackReadable (b : Board) : Prop :=
  b.stack ≠ .overlay ∨ b.sp < 2 ∨ 2 * (b.sp / 2) + 2 ≤ b.memory.size

theorem stackReadable_of_le (h : 256 ≤ b.memory.size) : b.StackReadable := by
  have hsp : b.sp ≤ 255 := Int.ofNat_le.mpr (Nat.le_of_lt_succ b.registers.sp.toNat_lt)
  exact .inr (.inr (by omega))

/-- The levels of an overlay are read as long as their words are in the bank. -/
theorem mapM_readLevel_of_le {n : Nat} (hfit : n = 0 ∨ 2 * (n : Int) + 1 ≤ b.memory.top) :
    (List.range n).mapM readLevel b = .ok (b.memory.words n) b := by
  rcases hfit with rfl | hfit
  · rfl
  · have hlevels : (b.memory.words n).reverse.length = n := by
      rw [List.length_reverse, Memory.length_words]
    have hread := mapM_readLevel (Memory.holds_words b.memory n) (by rw [hlevels]; exact hfit)
    rwa [hlevels, List.reverse_reverse] at hread

/-- Otherwise they are read until the first byte that is missing. -/
theorem mapM_readLevel_of_gt {n : Nat} (hpos : 0 < n) (hend : b.memory.top < 2 * n + 1) :
    (List.range n).mapM readLevel b =
      .error (.outOfBounds (max 2 (b.memory.top + 1)) b.memory.top) b := by
  induction n with
  | zero => exact absurd hpos (Nat.lt_irrefl 0)
  | succ n ih =>
    rw [List.range_succ, List.mapM_append]
    by_cases hfit : n = 0 ∨ 2 * (n : Int) + 1 ≤ b.memory.top
    · -- level `n` is the first one that cannot be read
      have hplace : ((2 * (n + 1) : Nat) : Int) = 2 * (n + 1) := by omega
      have hfirst : max (2 * ((n : Int) + 1)) (b.memory.top + 1) = max 2 (b.memory.top + 1) := by omega
      have hlast : readLevel n b = .error (.outOfBounds (max 2 (b.memory.top + 1)) b.memory.top) b := by
        rw [readLevel, Exec.bind_apply, onMemory_apply, hplace,
          Memory.readWord_of_gt (by omega) (by omega), hfirst]
      rw [Exec.bind_eq_ok (mapM_readLevel_of_le hfit), List.mapM_cons, Exec.bind_apply,
        Exec.bind_eq_error hlast]
    · exact Exec.bind_eq_error (ih (by omega) (by omega))

theorem savedAddresses_of_readable (h : b.StackReadable) :
    savedAddresses b = .ok b.stackView b := by
  cases hstack : b.stack with
  | dedicated capacity addresses =>
    simp only [savedAddresses, Exec.bind_apply, Exec.get_apply, hstack, Exec.pure_apply, stackView]
  | overlay =>
    have hfit : b.sp < 2 ∨ 2 * (b.sp / 2) + 2 ≤ b.memory.size := h.resolve_left fun hlist => hlist hstack
    rw [savedAddresses_overlay hstack, stackView, hstack]
    refine mapM_readLevel_of_le ?_
    rw [Memory.top_def]
    simp only [sp] at hfit
    omega

theorem savedAddresses_of_not_readable (h : ¬b.StackReadable) :
    savedAddresses b = .error (.outOfBounds (max 2 b.memory.size) b.memory.top) b := by
  cases hstack : b.stack with
  | dedicated capacity addresses => exact absurd (.inl (by rw [hstack]; nofun)) h
  | overlay =>
    have hsp : 2 ≤ b.sp := Int.not_lt.mp fun hlow => h (.inr (.inl hlow))
    have hend : b.memory.size < 2 * (b.sp / 2) + 2 := Int.not_le.mp fun hfit => h (.inr (.inr hfit))
    have hsize : b.memory.size = b.memory.top + 1 := by
      rw [Memory.top_def]
      omega
    simp only [sp] at hsp hend
    rw [savedAddresses_overlay hstack, mapM_readLevel_of_gt (by omega) (by omega), hsize]

end Board

namespace Machine

open Instruction

variable {m m' : Machine} {e : Fault}

/-! ### The report -/

/-- What the second part of a report says: the state of the machine, without an instruction, and
the addresses on the call stack. -/
def crashText (m : Machine) : String :=
  m.stateText "???" ++ "\nStack:" ++
    if m.board.stackView = [] then " (Empty)"
    else String.join (m.board.stackView.map fun a => " 0x" ++ Text.hex 3 a)

theorem text_crash (m : Machine) : (Entry.crash m.snapshot m.board.stackView).text = m.crashText := by
  show m.snapshot.text Entry.unknownLabel ++ "\nStack:" ++ Snapshot.stackText m.board.stackView = _
  rw [text_snapshot, crashText, Snapshot.stackText]
  cases m.board.stackView <;> rfl

/-- The machine that has written why it was stopped. -/
def halted (m : Machine) (reason : String) : Machine :=
  { m with journal := m.journal.record (.halted reason) }

/-- The machine that has also written in which state it was stopped. -/
def crashed (m : Machine) (reason : String) : Machine :=
  { m with journal := (m.halted reason).journal.record (.crash m.snapshot m.board.stackView) }

theorem output_halted (m : Machine) (reason : String) :
    (m.halted reason).output = m.output ++ [.halted reason] := by
  simp only [output, halted, Journal.record, Array.toList_push]

theorem output_crashed (m : Machine) (reason : String) :
    (m.crashed reason).output =
      m.output ++ [.halted reason, .crash m.snapshot m.board.stackView] := by
  simp only [output, crashed, halted, Journal.record, Array.toList_push, List.append_assoc]
  rfl

theorem reportCrash_of_readable (h : m.board.StackReadable) (reason : String) :
    reportCrash reason m = .ok () (m.crashed reason) := by
  simp only [reportCrash, record, changeJournal, Exec.bind_apply, Exec.modify_apply, onBoard_apply,
    Board.savedAddresses_of_readable h, Exec.get_apply]
  rfl

/-- The second part of a report is missing where the call stack cannot be read. -/
theorem reportCrash_of_not_readable (h : ¬m.board.StackReadable) (reason : String) :
    reportCrash reason m =
      .error (.outOfBounds (max 2 m.memory.size) m.memory.top) (m.halted reason) := by
  simp only [reportCrash, record, changeJournal, Exec.bind_apply, Exec.modify_apply, onBoard_apply,
    Board.savedAddresses_of_not_readable h]
  rfl

/-! ### The step that faults -/

/-- The step is noted with its PC, and its word is taken if there is one. -/
theorem processor_after_step (m : Machine) :
    (step.after m).processor.origin = m.registers.pc ∧
    (step.after m).processor.opcode =
      if m.board.pc + 1 ≤ m.memory.top then m.memory.wordAt m.board.pc else m.processor.opcode := by
  unfold Exec.after
  have hends := step_ends m
  generalize step m = r at hends
  cases hends with
  | unfetched hend => exact ⟨rfl, (if_neg (by omega)).symm⟩
  | unknown hfit | performed hfit | refused hfit => exact ⟨rfl, (if_pos hfit).symm⟩

/-- All that a step writes are lines of instructions. -/
theorem output_after_step (m : Machine) :
    ∃ traced, (step.after m).output = m.output ++ traced ∧ ∀ line ∈ traced, line.isTrace = true := by
  have hleaving : ∀ i b, ∃ traced, (m.fetched.leaving i b).output = m.output ++ traced ∧
      ∀ line ∈ traced, line.isTrace = true := by
    intro i b
    refine ⟨_, output_leaving m.fetched i b, fun line hline => ?_⟩
    split at hline
    · rw [List.mem_singleton.mp hline]
      rfl
    · exact absurd hline List.not_mem_nil
  unfold Exec.after
  have hends := step_ends m
  generalize step m = r at hends
  cases hends with
  | unfetched | unknown => exact ⟨[], (List.append_nil _).symm, fun _ h => absurd h List.not_mem_nil⟩
  | performed | refused => exact hleaving _ _

theorem output_afterSteps (m : Machine) (n : Nat) :
    ∃ traced, (m.afterSteps n).output = m.output ++ traced ∧ ∀ line ∈ traced, line.isTrace = true := by
  induction n with
  | zero => exact ⟨[], (List.append_nil _).symm, fun _ h => absurd h List.not_mem_nil⟩
  | succ n ih =>
    obtain ⟨traced, houtput, htraced⟩ := ih
    obtain ⟨next, hnext, htraced'⟩ := output_after_step (m.afterSteps n)
    refine ⟨traced ++ next, by rw [afterSteps, hnext, houtput, List.append_assoc], fun line hline => ?_⟩
    exact (List.mem_append.mp hline).elim (htraced line) (htraced' line)

/-! ### A run that is stopped -/

theorem output_startingAt (m : Machine) (start : Option Int) : (m.startingAt start).output = m.output := by
  cases start <;> rfl

theorem top_startingAt (m : Machine) (start : Option Int) :
    (m.startingAt start).memory.top = m.memory.top := by
  cases start <;> rfl

section

variable {start limit : Option Int} {fuel k : Nat} (hk : k < runLength limit fuel)
  (hbefore : Completes k (m.startingAt start))
  (hfault : step ((m.startingAt start).afterSteps k) = .error e m')

include hk hbefore hfault

/-- The fault is passed on if the call stack can be read. -/
theorem run_of_halts_of_readable (h : m'.board.StackReadable) :
    run start limit fuel m = .error e (m'.crashed e.message) := by
  rw [run_of_error (steps_of_halts hk hbefore hfault), reportCrash_of_readable h]

/-- Otherwise the fault of the reading takes its place. -/
theorem run_of_halts_of_not_readable (h : ¬m'.board.StackReadable) :
    run start limit fuel m =
      .error (.outOfBounds (max 2 m'.memory.size) m'.memory.top) (m'.halted e.message) := by
  rw [run_of_error (steps_of_halts hk hbefore hfault), reportCrash_of_not_readable h]

end

/-- **What gets out of a run that a fault stops.** The machine is as the step that faulted has left
it, but for what was written. The last lines are the report of the fault: its words, and the
state in which the run was stopped with the call stack, if that can be read. Then the fault is
passed on. Otherwise the report breaks off after the first line, and the fault that is passed on
names the first byte of the overlay that is missing. This cannot happen in a bank of 256 bytes. -/
theorem crash_boundary (m : Machine) (start limit : Option Int) (fuel k : Nat) (e : Fault)
    (hk : k < runLength limit fuel) (hbefore : Completes k (m.startingAt start))
    (hfault : step.answer ((m.startingAt start).afterSteps k) = .error e) :
    let before := (m.startingAt start).afterSteps k
    let left := step.after before
    let ended := (run start limit fuel).after m
    ended.board = left.board ∧ ended.processor = left.processor ∧
    left.processor.origin = before.registers.pc ∧
    left.processor.opcode =
      (if before.board.pc + 1 ≤ before.memory.top then before.memory.wordAt before.board.pc
        else before.processor.opcode) ∧
    (∃ traced, (∀ line ∈ traced, line.isTrace = true) ∧ left.output = m.output ++ traced ∧
      (left.board.StackReadable →
        (run start limit fuel).answer m = .error e ∧
        ended.output = m.output ++ traced ++
          [.halted e.message, .crash left.snapshot left.board.stackView]) ∧
      (¬left.board.StackReadable →
        (run start limit fuel).answer m = .error (.outOfBounds (max 2 m.memory.size) m.memory.top) ∧
        ended.output = m.output ++ traced ++ [.halted e.message])) ∧
    (Entry.halted e.message).text = "Emulation halted: " ++ e.message ∧
    (Entry.crash left.snapshot left.board.stackView).text = left.crashText ∧
    (256 ≤ m.memory.size → (run start limit fuel).answer m = .error e) := by
  intro before left ended
  have hstep : step before = .error e left := Exec.eq_error_of_answer hfault
  have htop : left.memory.top = m.memory.top := by
    rw [top_after_step, top_afterSteps, top_startingAt]
  have hsize : left.memory.size = m.memory.size := by
    rw [Memory.top_def, Memory.top_def] at htop
    omega
  obtain ⟨traced, houtput, htraced⟩ := output_afterSteps (m.startingAt start) (k + 1)
  have hleft : left.output = m.output ++ traced := houtput.trans (by rw [output_startingAt])
  obtain ⟨horigin, hopcode⟩ := processor_after_step before
  rw [← hsize, ← htop]
  by_cases hread : left.board.StackReadable
  · have hrun := run_of_halts_of_readable hk hbefore hstep hread
    have hended : ended = left.crashed e.message := Exec.after_of_error hrun
    have hanswer := Exec.answer_of_error hrun
    refine ⟨by rw [hended]; rfl, by rw [hended]; rfl, horigin, hopcode, ⟨traced, htraced, hleft, ?_, ?_⟩,
      rfl, text_crash left, fun _ => hanswer⟩
    · intro _
      exact ⟨hanswer, by rw [hended, output_crashed, hleft]⟩
    · intro hnot
      exact absurd hread hnot
  · have hrun := run_of_halts_of_not_readable hk hbefore hstep hread
    have hended : ended = left.halted e.message := Exec.after_of_error hrun
    have hanswer := Exec.answer_of_error hrun
    refine ⟨by rw [hended]; rfl, by rw [hended]; rfl, horigin, hopcode, ⟨traced, htraced, hleft, ?_, ?_⟩,
      rfl, text_crash left, fun hlarge => absurd (Board.stackReadable_of_le hlarge) hread⟩
    · intro hyes
      exact absurd hyes hread
    · intro _
      exact ⟨hanswer, by rw [hended, output_halted, hleft]⟩

/-- A machine with an overlay in five bytes and SP at the last of them. At PC there is no
instruction. -/
def overreaching : Machine where
  board := ⟨Memory.blank 5, ⟨Vector.replicate 16 0, 0, 0, 4⟩, .overlay, Screen.ofAnswers []⟩
  processor := Processor.blank true true 0
  journal := Journal.ofSetting Setting.off

/-- Its report breaks off, and what gets out is that the word at SP reaches past the bank. -/
theorem crash_boundary_overreaching :
    step.answer overreaching = .error (.notEmulated 0 0) ∧
    (run none (some 1) 0).answer overreaching = .error (.outOfBounds 5 4) ∧
    ((run none (some 1) 0).after overreaching).output = [.halted (Fault.notEmulated 0 0).message] := by
  have hfault : step.answer overreaching = .error (.notEmulated 0 0) := by decide +kernel
  have hread : ¬(step.after overreaching).board.StackReadable := by
    have hsp : (step.after overreaching).board.sp = 4 := by decide +kernel
    have hsize : (step.after overreaching).board.memory.size = 5 := by decide +kernel
    rintro (hlist | hlow | hfit)
    · exact hlist rfl
    · omega
    · omega
  obtain ⟨-, -, -, -, ⟨traced, -, hleft, -, hbroken⟩, -⟩ :=
    crash_boundary overreaching none (some 1) 0 0 _ (by decide) completes_zero hfault
  have hnothing : traced = [] := hleft.symm.trans rfl
  obtain ⟨hanswer, houtput⟩ := hbroken hread
  exact ⟨hfault, hanswer, by rw [houtput, hnothing]; rfl⟩

end Machine

end Chip8

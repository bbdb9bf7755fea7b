import Chip8.Proofs.Lockstep
import Chip8.Proofs.Overlay
import Chip8.Proofs.Running

/-!
# Two places for the call stack

The same machine is run twice, once with its return addresses in a list and once with an
overlay. A program that leaves the bytes of the overlay alone cannot tell the two apart,
and neither can anyone who reads its output: the machines agree on everything but the
call stack itself and the bytes under it, after every step and after every run.

What carries this is `Twins`, a relation between the two machines. `Undisturbed` asks of the
next step that it stays away from those bytes and that the list neither overflows nor
underflows. Nothing else is asked: a program may rewrite itself, and a step may fault and
be followed by others.

* `Twins.step`: such a step keeps the twins alike.
* `Twins.afterSteps` and `Twins.run`: so do any number of them, and so does a run.
* `overlay_agrees`: what this says of two machines that start with an empty call stack.
-/

namespace Chip8.Machine

open Instruction

/-! ### Two machines -/

/-- The machine with another call stack. -/
def withStack (m : Machine) (stack : CallStack) : Machine :=
  { m with board := { m.board with stack := stack } }

/-- The machine with these bytes and with an overlay for its call stack. -/
def overlaid (m : Machine) (c : Memory) : Machine := { m with board := m.board.overlaid c }

/-- The second machine is the first one with an overlay that holds what the list holds. -/
def Twins (levels : Nat) (d o : Machine) : Prop :=
  ∃ saved c, Board.Covers levels saved d.board c ∧ o = d.overlaid c

/-- The next step leaves the bytes of the overlay alone, and a list for `levels` addresses
neither overflows nor underflows. -/
structure Undisturbed (levels : Nat) (m : Machine) : Prop where
  /-- The word at PC is fetched from elsewhere. -/
  fetch : Apart levels m.board.pc 2
  /-- The instruction, if there is one, reads and writes elsewhere. -/
  data : m.board.pc + 1 ≤ m.memory.top → ∀ i, Denotes (m.memory.wordAt m.board.pc) i →
    Apart levels m.board.index (i.span m.processor.transferAll)
  underflow : step.answer m ≠ .error .stackUnderflow
  overflow : step.answer m ≠ .error .stackOverflow

/-- Two machines agree on all that does not belong to the overlay, and the second one shows
the addresses that the first one keeps. -/
structure AgreeOutside (levels : Nat) (d o : Machine) : Prop where
  registers : o.registers = d.registers
  processor : o.processor = d.processor
  screen : o.board.screen = d.board.screen
  journal : o.journal = d.journal
  size : o.memory.size = d.memory.size
  bytes : ∀ a, ¬InOverlay levels a → o.memory.byteAt a = d.memory.byteAt a
  saved : Board.savedAddresses.answer o.board = .ok d.board.stack.items

variable {levels : Nat} {d o m : Machine} {α : Type}

theorem Twins.agreeOutside (h : Twins levels d o) : AgreeOutside levels d o := by
  obtain ⟨saved, c, hcovers, rfl⟩ := h
  refine ⟨rfl, rfl, rfl, rfl, hcovers.size, hcovers.bytes, ?_⟩
  have hshown := hcovers.savedAddresses
  rw [hcovers.stack]
  simp only [Exec.answer, overlaid, hshown, CallStack.items]

/-! ### Operations on both -/

/-- Both operations end in the same way, and the machines that they leave are twins. -/
abbrev Alike (levels : Nat) :
    EStateM.Result Fault Machine α → EStateM.Result Fault Machine α → Prop :=
  Exec.Lockstep (Twins levels)

/-! ### A step on both -/

/-- Both machines fetch the same word. -/
theorem fetched_overlaid {saved : List Int} {c : Memory}
    (hcovers : Board.Covers levels saved d.board c) (hfetch : Apart levels d.board.pc 2) :
    (d.overlaid c).fetched = d.fetched.overlaid c := by
  have hfirst := hcovers.byteAt_add hfetch (k := 0) (by omega)
  have hsecond := hcovers.byteAt_add hfetch (k := 1) (by omega)
  simp only [Int.natCast_zero, Int.add_zero, Int.natCast_one] at hfirst hsecond
  have hword : (d.overlaid c).memory.wordAt (d.overlaid c).board.pc = d.memory.wordAt d.board.pc := by
    show c.wordAt d.board.pc = d.board.memory.wordAt d.board.pc
    rw [Memory.wordAt, Memory.wordAt, hfirst, hsecond]
  rw [fetched, hword]
  rfl

/-- What an instruction does to one twin it does to the other. -/
theorem Twins.carryOut (h : Twins levels d o) {i : Instruction}
    (hfetched : d.board.pc + 1 ≤ d.memory.top)
    (hapart : Apart levels d.board.index (i.span d.processor.transferAll))
    (hfaults : ∀ d',
      d.carryOut i ≠ .error .stackUnderflow d' ∧ d.carryOut i ≠ .error .stackOverflow d') :
    Alike levels (d.carryOut i) (o.carryOut i) := by
  obtain ⟨saved, c, hcovers, rfl⟩ := h
  obtain ⟨b', hrow⟩ | ⟨e, b', hrow⟩ := performs_or_refuses d.processor.transferAll d.board i
  · obtain ⟨saved', c', hcovers', hrow'⟩ := hrow.overlaid hcovers hfetched hapart
    rw [carryOut_eq_ok_iff.mpr ⟨b', hrow, rfl⟩, carryOut_eq_ok_iff.mpr ⟨_, hrow', rfl⟩]
    exact .ok ⟨saved', c', hcovers', rfl⟩
  · have hends := carryOut_eq_error_iff.mpr ⟨b', hrow, rfl⟩
    have hunderflow : e ≠ .stackUnderflow := by
      rintro rfl
      exact (hfaults _).1 hends
    have hoverflow : e ≠ .stackOverflow := by
      rintro rfl
      exact (hfaults _).2 hends
    obtain ⟨saved', c', hcovers', hrow'⟩ := hrow.overlaid hcovers hunderflow hoverflow hapart
    rw [hends, carryOut_eq_error_iff.mpr ⟨_, hrow', rfl⟩]
    exact .error ⟨saved', c', hcovers', rfl⟩

/-- **A step that leaves the overlay alone keeps the twins alike.** -/
theorem Twins.step (h : Twins levels d o) (hstep : Undisturbed levels d) :
    Alike levels (Machine.step d) (Machine.step o) := by
  obtain ⟨saved, c, hcovers, rfl⟩ := h
  have htop : (d.overlaid c).memory.top = d.memory.top := hcovers.top_eq
  have hpc : (d.overlaid c).board.pc = d.board.pc := rfl
  rcases Int.lt_or_le d.memory.top (d.board.pc + 1) with hend | hfit
  · rw [step_of_gt hend, step_of_gt (by rw [htop, hpc]; exact hend), htop, hpc]
    exact .error ⟨saved, c, hcovers, rfl⟩
  · have hone := step_of_le hfit
    rw [hone, step_of_le (by rw [htop, hpc]; exact hfit), fetched_overlaid hcovers hstep.fetch]
    have htwins : Twins levels d.fetched (d.fetched.overlaid c) := ⟨saved, c, hcovers, rfl⟩
    by_cases hemulated : Emulated d.fetched.processor.opcode
    · obtain ⟨i, hi⟩ := hemulated.denotes
      rw [decodeExecute_of_denotes hi] at hone ⊢
      rw [decodeExecute_of_denotes (m := d.fetched.overlaid c) hi]
      refine htwins.carryOut hfit (hstep.data hfit i hi) fun d' => ⟨?_, ?_⟩
      · intro hcarry
        exact hstep.underflow (by rw [Exec.answer, hone, hcarry])
      · intro hcarry
        exact hstep.overflow (by rw [Exec.answer, hone, hcarry])
    · rw [decodeExecute_of_not_emulated hemulated,
        decodeExecute_of_not_emulated (m := d.fetched.overlaid c) hemulated]
      exact .error ⟨saved, c, hcovers, rfl⟩

/-! ### Runs on both -/

theorem Twins.afterSteps {n : Nat} (h : Twins levels d o)
    (hsteps : ∀ k < n, Undisturbed levels (d.afterSteps k)) :
    Twins levels (d.afterSteps n) (o.afterSteps n) := by
  induction n with
  | zero => exact h
  | succ n ih =>
    have hn := ih fun k hk => hsteps k (Nat.lt_succ_of_lt hk)
    exact (hn.step (hsteps n (Nat.lt_succ_self n))).after

/-- Only the steps that a run takes have to leave the overlay alone. -/
theorem Twins.steps {n : Nat} (h : Twins levels d o)
    (hsteps : ∀ k < n, ∀ d', Machine.steps k d = .ok () d' → Undisturbed levels d') :
    Alike levels (Machine.steps n d) (Machine.steps n o) := by
  induction n generalizing d o with
  | zero => exact .ok h
  | succ n ih =>
    have hfirst := hsteps 0 (Nat.succ_pos n) d rfl
    refine (h.step hfirst).bind fun _ d' o' hd' h' => ih h' fun k hk d'' hd'' => ?_
    refine hsteps (k + 1) (Nat.succ_lt_succ hk) d'' ?_
    rw [Machine.steps, Exec.bind_eq_ok hd', hd'']

theorem reportCrash_apply {reason : String} {addresses : List Int}
    (h : Board.savedAddresses m.board = .ok addresses m.board) :
    reportCrash reason m = .ok ()
      { m with
        journal := (m.journal.record (.halted reason)).record (.crash m.snapshot addresses) } := by
  simp only [reportCrash, record, changeJournal, Exec.bind_apply, Exec.modify_apply, onBoard_apply, h,
    Exec.get_apply]
  rfl

/-- A crash is reported alike, the saved addresses included. -/
theorem Twins.reportCrash (h : Twins levels d o) (reason : String) :
    Alike levels (Machine.reportCrash reason d) (Machine.reportCrash reason o) := by
  obtain ⟨saved, c, hcovers, rfl⟩ := h
  have hlist : Board.savedAddresses d.board = .ok saved.reverse d.board := by
    simp only [Board.savedAddresses, Exec.bind_apply, Exec.get_apply, hcovers.stack, Exec.pure_apply]
  have hoverlay :
      Board.savedAddresses (d.overlaid c).board = .ok saved.reverse (d.overlaid c).board :=
    hcovers.savedAddresses
  rw [reportCrash_apply hlist, reportCrash_apply hoverlay]
  exact .ok ⟨saved, c, hcovers, rfl⟩

theorem Alike.reporting {x : Exec Machine α} (h : Alike levels (x d) (x o)) :
    Alike levels (reporting x d) (reporting x o) :=
  h.tryCatch fun _ _ _ h' => (h'.reportCrash _).bind fun _ _ _ _ h'' => .error h''

theorem Twins.startingAt (h : Twins levels d o) (start : Option Int) :
    Twins levels (d.startingAt start) (o.startingAt start) := by
  obtain ⟨saved, c, hcovers, rfl⟩ := h
  cases start with
  | none => exact ⟨saved, c, hcovers, rfl⟩
  | some a => exact ⟨saved, c, hcovers.rewire (d.registers.setPC a) d.board.screen rfl, rfl⟩

theorem Twins.run {start limit : Option Int} {fuel : Nat} (h : Twins levels d o)
    (hsteps : ∀ k < runLength limit fuel, ∀ d', Machine.steps k (d.startingAt start) = .ok () d' →
      Undisturbed levels d') :
    Alike levels (Machine.run start limit fuel d) (Machine.run start limit fuel o) := by
  rw [run_apply, run_apply]
  exact ((h.startingAt start).steps hsteps).reporting.bind fun _ _ _ _ h' => .ok h'

/-- An empty stack is kept in the same way in both places. -/
theorem twins_empty (hlevels : levels ≤ 127) (hsize : m.memory.size = memorySize)
    (hsp : m.registers.sp = 0) :
    Twins levels (m.withStack (.empty levels)) (m.withStack .overlay) := by
  refine ⟨[], m.memory, ⟨hlevels, rfl, Nat.zero_le _, ?_, ?_, rfl, fun _ _ => rfl, trivial⟩, rfl⟩
  · show (m.registers.sp.toNat : Int) = _
    rw [hsp]
    rfl
  · show m.memory.top = 4095
    rw [Memory.top_def, hsize]
    rfl

/-- **A list and an overlay cannot be told apart by a program that leaves the overlay alone.**
Step by step, faults included, and run by run, crash reports included. -/
theorem overlay_agrees (levels : Nat) (m : Machine) (hlevels : levels ≤ 127)
    (hsize : m.memory.size = memorySize) (hsp : m.registers.sp = 0) :
    let d := m.withStack (.empty levels)
    let o := m.withStack .overlay
    (∀ n, (∀ k < n, Undisturbed levels (d.afterSteps k)) →
      AgreeOutside levels (d.afterSteps n) (o.afterSteps n) ∧
      ∀ k < n, step.answer (d.afterSteps k) = step.answer (o.afterSteps k)) ∧
    ∀ start limit fuel,
      (∀ k < runLength limit fuel, ∀ d', steps k (d.startingAt start) = .ok () d' →
        Undisturbed levels d') →
      (run start limit fuel).answer d = (run start limit fuel).answer o ∧
      AgreeOutside levels ((run start limit fuel).after d) ((run start limit fuel).after o) := by
  intro d o
  have hempty : Twins levels d o := twins_empty hlevels hsize hsp
  constructor
  · intro n hsteps
    refine ⟨(hempty.afterSteps hsteps).agreeOutside, ?_⟩
    intro k hk
    have hk' := hempty.afterSteps fun j hj => hsteps j (Nat.lt_trans hj hk)
    exact (hk'.step (hsteps k hk)).answer
  · intro start limit fuel hsteps
    have hrun := hempty.run hsteps
    exact ⟨hrun.answer, hrun.after.agreeOutside⟩

/-! ### A program that calls -/

/-- An instruction that performs apart from the overlay disturbs nothing. -/
theorem undisturbed_of_performs {i : Instruction} {b' : Board}
    (hfit : m.board.pc + 1 ≤ m.memory.top) (hi : Denotes (m.memory.wordAt m.board.pc) i)
    (hrow : Performs m.processor.transferAll m.board i b') (hfetch : Apart levels m.board.pc 2)
    (hdata : Apart levels m.board.index (i.span m.processor.transferAll)) :
    Undisturbed levels m := by
  have hcarry : m.fetched.carryOut i = .ok () (m.fetched.leaving i b') :=
    carryOut_eq_ok_iff.mpr ⟨b', hrow, rfl⟩
  have hanswer : step.answer m = .ok () := by
    rw [Exec.answer, step_of_le hfit, decodeExecute_of_denotes (m := m.fetched) hi, hcarry]
  refine ⟨hfetch, ?_, ?_, ?_⟩
  · intro _ j hj
    rw [hj.unique hi]
    exact hdata
  · rw [hanswer]
    intro h
    cases h
  · rw [hanswer]
    intro h
    cases h

/-- A machine with a program that begins with a call. -/
def calling : Machine :=
  build ((Memory.blank memorySize).setBlock programStart [0x22, 0x02]) (.empty 1)
    (Screen.ofAnswers []) true Setting.off

theorem wordAt_calling : calling.memory.wordAt 0x200 = 0x2202 ∧ calling.memory.top = 4095 := by
  decide +kernel

theorem undisturbed_calling : Undisturbed 1 calling := by
  obtain ⟨hword, htop⟩ := wordAt_calling
  have hpc : calling.board.pc = 0x200 := rfl
  have hindex : calling.board.index = 0 := rfl
  have hdenotes : Denotes (calling.memory.wordAt calling.board.pc) (.call 0x202) := by
    rw [hpc, hword]
    rfl
  refine undisturbed_of_performs ?_ hdenotes (.callDedicated rfl (by decide)) ?_ ?_
  · rw [hpc, htop]
    decide
  · intro c hc hin
    have := hc.2
    omega
  · intro c _ hin
    simp only [Instruction.span] at hin
    omega

/-- The address of a first call is saved in both places. -/
theorem overlay_agrees_calling :
    Undisturbed 1 calling ∧
    AgreeOutside 1 ((calling.withStack (.empty 1)).afterSteps 1)
      ((calling.withStack .overlay).afterSteps 1) ∧
    (run none (some 1) 0).answer (calling.withStack (.empty 1)) =
      (run none (some 1) 0).answer (calling.withStack .overlay) := by
  obtain ⟨hsteps, hruns⟩ := overlay_agrees 1 calling (by decide) rfl rfl
  refine ⟨undisturbed_calling, (hsteps 1 ?_).1, (hruns none (some 1) 0 ?_).1⟩
  · intro k hk
    obtain rfl : k = 0 := Nat.lt_one_iff.mp hk
    exact undisturbed_calling
  · intro k hk d hd
    obtain rfl : k = 0 := Nat.lt_one_iff.mp hk
    cases hd
    exact undisturbed_calling

end Chip8.Machine

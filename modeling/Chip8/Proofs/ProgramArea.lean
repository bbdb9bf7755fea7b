import Chip8.Proofs.CrashReport

/-!
# What a program can overwrite

An overlay keeps return addresses in memory, and calls may nest without end. Still no call reaches a
program: SP is a byte, so the word at SP ends at `0x100` at the latest, and after 128 levels the
addresses begin to overwrite each other. In a bank that has all these words, calls and returns do not
fail either. Above `0x100` a byte changes only where an instruction stores decimal digits or
registers at I, so a program that does neither is the same after any number of steps.

* `Performs.byteAt_eq` and `Refuses.byteAt_eq`: the bytes that an instruction may change.
* `byteAt_after_step`: the bytes that a step may change.
* `calls_spare_program`: any number of steps, and a run.
-/

namespace Chip8

variable {all : Bool} {b b' : Board} {i : Instruction} {e : Fault} {c : Int}

/-! ### The bytes that an instruction may change -/

/-- The addresses at which an instruction may store a byte. -/
def Board.Reach (b : Board) : Instruction → Int → Prop
  | .call _, c => b.nextSP ≤ c ∧ c < b.nextSP + 2
  | .decimal _, c => b.index ≤ c ∧ c < b.index + 3
  | .store _, c => b.index ≤ c ∧ c < b.index + 16
  | _, _ => False

theorem Board.reach_of_storesAt (h : b.StoresAt all i c) : b.Reach i c := by
  cases i with
  | call => exact h.2.2
  | decimal => exact h
  | @store x =>
    have hlast := lastRegister_lt all x
    obtain ⟨hfrom, hbelow⟩ := h
    exact ⟨hfrom, by omega⟩
  | _ => exact h

theorem Performs.byteAt_eq (h : Performs all b i b') (hout : ¬b.Reach i c) :
    b'.memory.byteAt c = b.memory.byteAt c :=
  h.byteAt_of_not_storesAt (mt Board.reach_of_storesAt hout)

/-- An instruction that fails reaches no further. -/
theorem Refuses.byteAt_eq (h : Refuses all b i e b') (hout : ¬b.Reach i c) :
    b'.memory.byteAt c = b.memory.byteAt c :=
  h.byteAt_of_not_storesAt (mt Board.reach_of_storesAt hout)

/-- A call leaves SP one level up. -/
theorem Performs.sp_call {a : Fin 4096} (h : Performs all b (.call a) b') : b'.sp = b.nextSP := by
  cases h with
  | callDedicated | callOverlay => exact Word.toNat_low (b.sp + 2)

theorem Performs.pc_call {a : Fin 4096} (h : Performs all b (.call a) b') : b'.pc = a.val := by
  have hpc : ((Word.ofInt a.val).toNat : Int) = a.val := by
    have := Word.toNat_ofInt a.val
    omega
  cases h with
  | callDedicated | callOverlay => exact hpc

/-! ### An overlay in a bank that is large enough -/

/-- The call stack is an overlay, and there is a word at every SP. -/
structure Board.Roomy (b : Board) : Prop where
  stack : b.stack = .overlay
  size : 257 ≤ b.memory.size

namespace Board.Roomy

theorem top (h : b.Roomy) : 256 ≤ b.memory.top := by
  have := h.size
  rw [Memory.top_def]
  omega

theorem of_eq (h : b.Roomy) (hstack : b'.stack = b.stack) (htop : b'.memory.top = b.memory.top) :
    b'.Roomy := by
  refine ⟨hstack.trans h.stack, ?_⟩
  have := h.size
  rw [Memory.top_def, Memory.top_def] at htop
  omega

theorem sp_le (b : Board) : b.sp ≤ 255 := Int.ofNat_le.mpr (Nat.le_of_lt_succ b.registers.sp.toNat_lt)

theorem nextSP_le (b : Board) : b.nextSP ≤ 255 := by
  rw [nextSP]
  omega

theorem performs (h : b.Roomy) (hrow : Performs all b i b') : b'.Roomy := by
  refine h.of_eq ?_ hrow.top_eq
  cases hrow with
  | retDedicated hstack | callDedicated hstack =>
    rw [h.stack] at hstack
    cases hstack
  | _ => rfl

theorem refuses (h : b.Roomy) (hrow : Refuses all b i e b') : b'.Roomy :=
  h.of_eq hrow.frame.2.2.1 hrow.top_eq

/-- **Calls and returns do not fail.** -/
theorem not_refuses (h : b.Roomy) (hrow : Refuses all b i e b') : i ≠ .ret ∧ ∀ a, i ≠ .call a := by
  have hstack := h.stack
  have htop := h.top
  have hsp := sp_le b
  have hnext := nextSP_le b
  cases hrow with
  | retDedicated hlist | callDedicated hlist =>
    rw [hstack] at hlist
    cases hlist
  | retOverlay _ hend => omega
  | callOverlay _ hend => omega
  | _ => exact ⟨nofun, nofun⟩

end Board.Roomy

namespace Machine

open Instruction

variable {m : Machine}

/-! ### The bytes that a step may change -/

/-- **A byte that a step changes is one that its instruction may store.** -/
theorem byteAt_after_step (h : (step.after m).memory.byteAt c ≠ m.memory.byteAt c) :
    ∃ i, m.Reaches i ∧ m.board.Reach i c := by
  by_contra hnone
  have hout : ∀ i, m.Reaches i → ¬m.board.Reach i c := fun i hi hreach => hnone ⟨i, hi, hreach⟩
  refine h ?_
  unfold Exec.after
  have hends := step_ends m
  generalize step m = r at hends
  cases hends with
  | unfetched | unknown => rfl
  | performed hfit hi hrow => exact hrow.byteAt_eq (hout _ ⟨hfit, hi⟩)
  | refused hfit hi hrow => exact hrow.byteAt_eq (hout _ ⟨hfit, hi⟩)

theorem roomy_after_step (m : Machine) (h : m.board.Roomy) : (step.after m).board.Roomy := by
  rcases board_after_step m with hsame | ⟨-, ⟨i, hrow⟩ | ⟨i, e, hrow⟩⟩
  · rw [hsame]
    exact h
  · exact h.performs hrow
  · exact h.refuses hrow

theorem roomy_afterSteps (h : m.board.Roomy) (n : Nat) : (m.afterSteps n).board.Roomy :=
  afterSteps_induction (fun m => roomy_after_step m) h n

/-- A call or a return completes. -/
theorem completes_of_reaches (h : m.board.Roomy) {i : Instruction} (hreach : m.Reaches i)
    (hi : i = .ret ∨ ∃ a, i = .call a) : step.answer m = .ok () := by
  unfold Exec.answer
  have hends := step_ends m
  generalize step m = r at hends
  cases hends with
  | unfetched hend => exact absurd hreach.1 (by omega)
  | unknown _ hnone => exact absurd hreach.2.emulated hnone
  | performed => rfl
  | refused _ hi' hrow =>
    obtain rfl := hi'.unique hreach.2
    obtain ⟨hret, hcall⟩ := h.not_refuses hrow
    rcases hi with hi | ⟨a, hi⟩
    · exact absurd hi hret
    · exact absurd hi (hcall a)

/-- A call that the step comes to is performed. -/
theorem performs_call (h : m.board.Roomy) {a : Fin 4096} (hreach : m.Reaches (.call a)) :
    Performs m.processor.transferAll m.board (.call a) (step.after m).board := by
  have hstep := Exec.eq_ok_of_answer (completes_of_reaches h hreach (.inr ⟨a, rfl⟩))
  obtain ⟨i, hi, hrow⟩ := performs_of_step hstep
  obtain rfl := hi.unique hreach.2
  exact hrow

/-! ### Many steps -/

/-- The next step comes to an instruction that stores digits or registers. -/
def StoresNext (m : Machine) : Prop := ∃ x, m.Reaches (.decimal x) ∨ m.Reaches (.store x)

/-- Above `0x100` only such a step changes a byte. -/
theorem storesNext_of_changed (hhigh : 0x100 < c)
    (h : (step.after m).memory.byteAt c ≠ m.memory.byteAt c) :
    (∃ x, m.Reaches (.decimal x) ∧ m.board.index ≤ c ∧ c ≤ m.board.index + 2) ∨
      ∃ x, m.Reaches (.store x) ∧ m.board.index ≤ c ∧ c ≤ m.board.index + 15 := by
  obtain ⟨i, hreach, hspan⟩ := byteAt_after_step h
  cases i with
  | call a =>
    have hnext := Board.Roomy.nextSP_le m.board
    obtain ⟨-, hbelow⟩ := hspan
    omega
  | decimal x =>
    obtain ⟨habove, hbelow⟩ := hspan
    exact .inl ⟨x, hreach, habove, by omega⟩
  | store x =>
    obtain ⟨habove, hbelow⟩ := hspan
    exact .inr ⟨x, hreach, habove, by omega⟩
  | _ => exact hspan.elim

theorem byteAt_afterSteps (hhigh : 0x100 < c) {n : Nat} (h : ∀ k < n, ¬(m.afterSteps k).StoresNext) :
    (m.afterSteps n).memory.byteAt c = m.memory.byteAt c := by
  induction n with
  | zero => rfl
  | succ n ih =>
    rw [← ih fun k hk => h k (Nat.lt_succ_of_lt hk)]
    by_contra hchanged
    refine h n (Nat.lt_succ_self n) ?_
    rcases storesNext_of_changed hhigh hchanged with ⟨x, hx, -⟩ | ⟨x, hx, -⟩
    · exact ⟨x, .inl hx⟩
    · exact ⟨x, .inr hx⟩

theorem not_storesNext_of_call {a : Fin 4096} (h : m.Reaches (.call a)) : ¬m.StoresNext := by
  rintro ⟨x, hx | hx⟩
  · cases hx.2.unique h.2
  · cases hx.2.unique h.2

/-- The report of a crash leaves the board alone. -/
theorem board_after_reportCrash (reason : String) (m : Machine) :
    ((reportCrash reason).after m).board = m.board := by
  by_cases hread : m.board.StackReadable
  · rw [Exec.after_of_ok (reportCrash_of_readable hread reason)]
    rfl
  · rw [Exec.after_of_error (reportCrash_of_not_readable hread reason)]
    rfl

/-- A run leaves the board of the steps that it has taken. -/
theorem board_after_run (m : Machine) (start limit : Option Int) (fuel : Nat) :
    ∃ n ≤ runLength limit fuel, (∀ k < n, Completes k (m.startingAt start)) ∧
      ((run start limit fuel).after m).board = ((m.startingAt start).afterSteps n).board := by
  rcases completes_or_halts (runLength limit fuel) (m.startingAt start) with hall | ⟨k, hk, hbefore, e, hhalts⟩
  · refine ⟨_, Nat.le_refl _, fun k hk => hall.mono (Nat.le_of_lt hk), ?_⟩
    rw [run_after_of_ok (steps_eq_ok_iff.mpr ⟨hall, rfl⟩)]
  · refine ⟨k + 1, hk, fun j hj => hbefore.mono (Nat.le_of_lt_succ hj), ?_⟩
    rw [run_after_of_error (steps_of_halts hk hbefore (Exec.eq_error_of_answer hhalts)),
      board_after_reportCrash, afterSteps]

/-- **Calls never overwrite a program.** On a machine with an overlay in a bank of at least 257 bytes
no call and no return fails, wherever SP is. A call changes at most the two bytes at the new SP,
and none above `0x100`. There a byte changes only in a step that stores decimal digits at I, or
registers, and then it is one of the 3 or 16 from I on. So after any number of steps without
such an instruction, and after a run without one, all bytes above `0x100` are as they were. -/
theorem calls_spare_program (m : Machine) (hstack : m.board.stack = .overlay) (hsize : 257 ≤ m.memory.size) :
    (∀ n,
      let s := m.afterSteps n
      let next := step.after s
      (∀ i, s.Reaches i → (i = .ret ∨ ∃ a, i = .call a) → step.answer s = .ok ()) ∧
      (∀ a c, s.Reaches (.call a) → next.memory.byteAt c ≠ s.memory.byteAt c →
        next.board.sp ≤ c ∧ c ≤ next.board.sp + 1 ∧ c ≤ 0x100) ∧
      ∀ c, 0x100 < c → next.memory.byteAt c ≠ s.memory.byteAt c →
        (∃ x, s.Reaches (.decimal x) ∧ s.board.index ≤ c ∧ c ≤ s.board.index + 2) ∨
        ∃ x, s.Reaches (.store x) ∧ s.board.index ≤ c ∧ c ≤ s.board.index + 15) ∧
    (∀ n, (∀ k < n, ¬(m.afterSteps k).StoresNext) →
      ∀ c, 0x100 < c → (m.afterSteps n).memory.byteAt c = m.memory.byteAt c) ∧
    ∀ start limit fuel,
      (∀ k < runLength limit fuel, Completes k (m.startingAt start) →
        ¬((m.startingAt start).afterSteps k).StoresNext) →
      ∀ c, 0x100 < c → ((run start limit fuel).after m).memory.byteAt c = m.memory.byteAt c := by
  have hroomy : m.board.Roomy := ⟨hstack, hsize⟩
  refine ⟨fun n => ?_, fun n h c hhigh => byteAt_afterSteps hhigh h, fun start limit fuel h c hhigh => ?_⟩
  · intro s next
    have hs : s.board.Roomy := roomy_afterSteps hroomy n
    refine ⟨fun i hreach hi => completes_of_reaches hs hreach hi, fun a c hreach hchanged => ?_,
      fun c hhigh hchanged => storesNext_of_changed hhigh hchanged⟩
    obtain ⟨i, hi, hspan⟩ := byteAt_after_step hchanged
    obtain rfl := hi.2.unique hreach.2
    rw [(performs_call hs hreach).sp_call]
    have hnext := Board.Roomy.nextSP_le s.board
    obtain ⟨habove, hbelow⟩ := hspan
    omega
  · obtain ⟨n, hn, htaken, hboard⟩ := board_after_run m start limit fuel
    have hsteps : ∀ k < n, ¬((m.startingAt start).afterSteps k).StoresNext := fun k hk =>
      h k (Nat.lt_of_lt_of_le hk hn) (htaken k hk)
    have hstart : (m.startingAt start).memory = m.memory := by cases start <;> rfl
    have hkept := byteAt_afterSteps hhigh hsteps
    rw [hstart] at hkept
    exact (congrArg (fun b => b.memory.byteAt c) hboard).trans hkept

/-- The next step calls the routine that it stands in, from above the overlay. -/
def Recurses (m : Machine) : Prop :=
  m.board.Roomy ∧ 0x100 < m.board.pc ∧ ∃ a : Fin 4096, (a.val : Int) = m.board.pc ∧ m.Reaches (.call a)

/-- Such a call never ends. -/
theorem Recurses.again (h : m.Recurses) : (step.after m).Recurses := by
  obtain ⟨hroomy, hhigh, a, ha, hreach⟩ := h
  have hpc : (step.after m).board.pc = m.board.pc := by
    rw [(performs_call hroomy hreach).pc_call, ha]
  have hkept : ∀ c, 0x100 < c → (step.after m).memory.byteAt c = m.memory.byteAt c := fun c hc => by
    refine byteAt_afterSteps (n := 1) hc fun k hk => ?_
    obtain rfl := Nat.lt_one_iff.mp hk
    exact not_storesNext_of_call hreach
  have hword : (step.after m).memory.wordAt m.board.pc = m.memory.wordAt m.board.pc := by
    rw [Memory.wordAt, Memory.wordAt, hkept _ hhigh, hkept _ (by omega)]
  refine ⟨roomy_after_step m hroomy, by rw [hpc]; exact hhigh, a, by rw [hpc]; exact ha, ?_, ?_⟩
  · rw [hpc, top_after_step]
    exact hreach.1
  · rw [hpc, hword]
    exact hreach.2

/-- A machine whose only instruction calls itself, with SP at an odd byte. -/
def recursing : Machine where
  board :=
    ⟨(Memory.blank 0x202).setBlock 0x200 [0x22, 0x00], ⟨Vector.replicate 16 0, 0, 0x200, 0xFF⟩, .overlay,
      Screen.ofAnswers []⟩
  processor := Processor.blank true true 0x200
  journal := Journal.ofSetting Setting.off

/-- However deep its calls nest, the instruction is still there. -/
theorem calls_spare_program_recursing :
    recursing.board.stack = .overlay ∧ 257 ≤ recursing.memory.size ∧
    ∀ limit fuel, ((run none limit fuel).after recursing).memory.wordAt 0x200 = 0x2200 := by
  have hsize : 257 ≤ recursing.memory.size := by decide +kernel
  have hstart : recursing.Recurses :=
    ⟨⟨rfl, hsize⟩, by decide +kernel, 0x200, by decide +kernel, by decide +kernel,
      decode?_eq_some_iff.mp (by decide +kernel)⟩
  obtain ⟨-, -, hrun⟩ := calls_spare_program recursing rfl hsize
  refine ⟨rfl, hsize, fun limit fuel => ?_⟩
  have hkept := hrun none limit fuel fun k _ _ => by
    obtain ⟨-, -, a, -, hreach⟩ := afterSteps_induction (fun m => Recurses.again (m := m)) hstart k
    exact not_storesNext_of_call hreach
  rw [Memory.wordAt, hkept _ (by decide), hkept _ (by decide)]
  decide +kernel

end Machine

end Chip8

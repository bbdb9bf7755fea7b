import Chip8.Proofs.CallNesting

/-!
# Where a program can get to

On a machine of the usual size, with return addresses in a list, no program gets far past
the end of memory. A word is fetched at `0xFFE` at most, so PC is at most four beyond that, and
a return address at most two. These depend on each other: a return takes PC from the list, and a
call puts an address into the list that depends on PC. `Bounded` holds all of it at once and
is kept by every row of the tables, so also by a step that faults.

* `Performs.bounded` and `Refuses.bounded`: one instruction.
* `bounded_step`: one step, which may also fault before it reaches an instruction.
* `addresses_bounded`: any number of steps, and the addresses that their faults name.
-/

namespace Chip8

variable {all : Bool} {capacity : Int} {saved : List Int} {b b' : Board} {i : Instruction} {e : Fault}

/-! ### Where an instruction leads -/

theorem toNat_operand_le (a : Fin 4096) : ((Word.ofInt a.val).toNat : Int) ≤ 0xFFF := by
  have := Word.toNat_ofInt a.val
  omega

/-- I is as it was or an operand. -/
theorem Performs.index_le (h : Performs all b i b') : b'.index = b.index ∨ b'.index ≤ 0xFFF := by
  cases h with
  | index => exact .inr (toNat_operand_le _)
  | load => exact .inl (by simp [Board.index])
  | _ => exact .inl rfl

/-- PC is an operand, it has gone on by one or two instructions, or it comes from the list. -/
theorem Performs.pc_cases (h : Performs all b i b') (hlist : b.stack = .dedicated capacity saved) :
    b'.pc ≤ 0xFFF ∨ b'.pc = (b.pc + 2) % 65536 ∨ b'.pc = (b.pc + 4) % 65536 ∨
      ∃ a ∈ saved, b'.pc = a % 65536 := by
  cases h with
  | jump => exact .inl (toNat_operand_le _)
  | callDedicated => exact .inl (toNat_operand_le _)
  | @retDedicated _ a rest hstack =>
    rw [hlist] at hstack
    obtain ⟨rfl, rfl⟩ := CallStack.dedicated.inj hstack
    exact .inr (.inr (.inr ⟨a, List.mem_cons_self, Word.toNat_ofInt a⟩))
  | retOverlay hstack | callOverlay hstack =>
    rw [hlist] at hstack
    cases hstack
  | skipEq | skipNe | skipSame =>
    simp only [Board.pc, Registers.pc_setPC]
    split
    · exact .inr (.inr (.inl (Word.toNat_ofInt _)))
    · exact .inr (.inl (Word.toNat_ofInt _))
  | _ => exact .inr (.inl (Word.toNat_ofInt (b.pc + 2)))

/-! ### The bounds -/

/-- What bounds the addresses of a machine of the usual size. -/
structure Bounded (capacity : Int) (b : Board) : Prop where
  top : b.memory.top = 0xFFF
  pc : b.pc ≤ 0x1002
  index : b.index ≤ 0xFFF
  /-- The return addresses follow instructions that were fetched. -/
  saved : ∃ saved, b.stack = .dedicated capacity saved ∧ ∀ a ∈ saved, 0x002 ≤ a ∧ a ≤ 0x1000

/-- **An instruction that was fetched keeps the bounds.** -/
theorem Performs.bounded (h : Performs all b i b') (hb : Bounded capacity b)
    (hfit : b.pc + 1 ≤ b.memory.top) : Bounded capacity b' := by
  obtain ⟨saved, hlist, hsaved⟩ := hb.saved
  have htop := hb.top
  have hpc := b.pc_nonneg
  refine ⟨h.top_eq.trans htop, ?_, ?_, ?_⟩
  · rcases h.pc_cases hlist with hoperand | hnext | hskip | ⟨a, ha, hreturn⟩
    · omega
    · omega
    · omega
    · have := hsaved a ha
      omega
  · rcases h.index_le with hsame | hoperand
    · rw [hsame]
      exact hb.index
    · exact hoperand
  · cases h.stackMove hlist with
    | stays hstack => exact ⟨saved, hstack, hsaved⟩
    | pushes hstack =>
      refine ⟨_, hstack, fun a ha => ?_⟩
      rcases List.mem_cons.mp ha with rfl | ha
      · omega
      · exact hsaved a ha
    | @pops a rest hpopped hstack =>
      refine ⟨rest, hstack, fun c hc => hsaved c ?_⟩
      rw [hpopped]
      exact List.mem_cons_of_mem a hc

/-- **An instruction that fails keeps them too**, as it leaves the pointers and the list alone. -/
theorem Refuses.bounded (h : Refuses all b i e b') (hb : Bounded capacity b) : Bounded capacity b' := by
  obtain ⟨hpc, hi, hstack, -⟩ := h.frame
  refine ⟨h.top_eq.trans hb.top, ?_, ?_, ?_⟩
  · have := hb.pc
    simpa only [Board.pc, hpc] using this
  · have := hb.index
    simpa only [Board.index, hi] using this
  · rw [hstack]
    exact hb.saved

/-- An instruction misses at most the bytes of a sprite that begins at the last address. -/
theorem Refuses.address_le (h : Refuses all b i e b') (hb : Bounded capacity b) {a t : Int}
    (he : e = .outOfBounds a t) : 0x1000 ≤ a ∧ a ≤ 0x100D := by
  obtain ⟨saved, hlist, -⟩ := hb.saved
  have htop := hb.top
  have hindex := hb.index
  cases h with
  | retDedicated | callDedicated => cases he
  | retOverlay hstack | callOverlay hstack =>
    rw [hlist] at hstack
    cases hstack
  | drawStart hend => omega
  | drawEnd hat hpos hend =>
    cases he
    omega
  | decimal | store | load =>
    cases he
    omega

namespace Machine

variable {m : Machine}

/-- **A step keeps the bounds, whether it faults or not.** -/
theorem bounded_step (m : Machine) (hb : Bounded capacity m.board) :
    Bounded capacity (step.after m).board := by
  rcases board_after_step m with hsame | ⟨hfit, ⟨i, hrow⟩ | ⟨i, e, hrow⟩⟩
  · rw [hsame]
    exact hb
  · exact hrow.bounded hb hfit
  · exact hrow.bounded hb

/-- The addresses that the faults of a step name. -/
theorem address_le_of_step (hb : Bounded capacity m.board) {a t : Int}
    (h : step.answer m = .error (.outOfBounds a t)) : 0x1000 ≤ a ∧ a ≤ 0x100D := by
  have htop : m.memory.top = 0xFFF := hb.top
  have hpc := hb.pc
  have hstep := Exec.eq_error_of_answer h
  generalize step.after m = m' at hstep
  have hends := step_ends m
  rw [hstep] at hends
  cases hends with
  | unfetched => omega
  | refused _ _ hrow => exact hrow.address_le hb rfl

/-- **No program gets far past the end of memory.** After any number of steps, of which any may
have faulted, PC, I and the saved addresses are bounded, and so is the address that the next
fault names. -/
theorem addresses_bounded (m : Machine) (capacity : Int) (hsize : m.memory.size = memorySize)
    (hempty : m.board.stack = .empty capacity) (hpc : m.board.pc ≤ 0x1002) (hi : m.board.index ≤ 0xFFF)
    (n : Nat) :
    let s := m.afterSteps n
    s.board.pc ≤ 0x1002 ∧ s.board.index ≤ 0xFFF ∧
    (∀ a ∈ s.board.stack.items, 0x002 ≤ a ∧ a ≤ 0x1000) ∧
    (∀ a t, step.answer s = .error (.outOfBounds a t) → 0x1000 ≤ a ∧ a ≤ 0x100D) ∧
    (∀ a t, fetch.answer s = .error (.outOfBounds a t) →
      step.answer s = .error (.outOfBounds a t) ∧ 0x1000 ≤ a ∧ a ≤ 0x1002) := by
  intro s
  have hstart : Bounded capacity m.board := by
    refine ⟨?_, hpc, hi, [], hempty, fun a ha => absurd ha List.not_mem_nil⟩
    show m.memory.top = 0xFFF
    rw [Memory.top_def, hsize]
    rfl
  have hb : Bounded capacity s.board := afterSteps_induction (fun m => bounded_step m) hstart n
  obtain ⟨saved, hlist, hsaved⟩ := hb.saved
  refine ⟨hb.pc, hb.index, fun a ha => hsaved a ?_, fun a t => address_le_of_step hb, fun a t h => ?_⟩
  · rw [hlist] at ha
    exact List.mem_reverse.mp ha
  · obtain ⟨hend, hstep⟩ := step_fault_of_fetch h
    refine ⟨hstep, (address_le_of_step hb hstep).1, ?_⟩
    have hfault := Exec.answer_of_error (fetch_of_gt hend)
    rw [h] at hfault
    have htop : s.memory.top = 0xFFF := hb.top
    have hpc := hb.pc
    cases hfault
    omega

/-- A machine whose last word skips the next instruction. -/
def leaping : Machine where
  board :=
    ⟨(Memory.blank memorySize).setBlock 0xFFE [0x30, 0x00], ⟨Vector.replicate 16 0, 0, 0xFFE, 0⟩,
      .empty 0, Screen.ofAnswers []⟩
  processor := Processor.blank true false 0xFFE
  journal := Journal.ofSetting Setting.off

/-- It gets as far as the bound allows. -/
theorem addresses_bounded_leaping :
    leaping.memory.size = memorySize ∧ (leaping.afterSteps 1).board.pc ≤ 0x1002 ∧
    step.answer (leaping.afterSteps 1) = .error (.outOfBounds 0x1002 0xFFF) ∧
    (0x1000 : Int) ≤ 0x1002 ∧ (0x1002 : Int) ≤ 0x100D := by
  have hfault : step.answer (leaping.afterSteps 1) = .error (.outOfBounds 0x1002 0xFFF) := by
    decide +kernel
  obtain ⟨hpc, -, -, hfaults, -⟩ := addresses_bounded leaping 0 rfl rfl (by decide) (by decide) 1
  exact ⟨rfl, hpc, hfault, hfaults _ _ hfault⟩

end Machine

end Chip8

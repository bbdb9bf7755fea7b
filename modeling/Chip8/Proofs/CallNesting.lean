import Chip8.Proofs.Running
import Mathlib.Control.Monad.Basic

/-!
# Calls and their returns

A routine comes back to the instruction after its call, with the call stack as it was, if
return addresses are kept in a list. Nothing is asked of the routine but that it does not
return more often than it calls before it is done: it may call others, jump and rewrite the
program.

What carries this is `Inside`, which holds of every board between the call and its return:
the addresses that were saved before the call lie untouched under the address that the call
saved, and SP counts those above them. It counts them modulo 256, as SP is a byte, and the
address itself may lie past the last word: a call at `0xFFFE` saves `0x10000`.

* `Performs.stackMove`: what one instruction does to the list.
* `Inside.performs`: it stays inside, or it is the return.
* `matching_return`: what this says of a run that begins with a call.
-/

namespace Chip8

/-! ### The list of return addresses -/

/-- What an instruction does to a list of return addresses and to the pointers beside it. -/
inductive StackMove (capacity : Int) (saved : List Int) (b b' : Board) : Prop
  /-- Neither the list nor SP changes. -/
  | stays (hstack : b'.stack = .dedicated capacity saved) (hsp : b'.sp = b.sp)
  /-- The address of the next instruction is added. -/
  | pushes (hstack : b'.stack = .dedicated capacity ((b.pc + 2) :: saved))
      (hsp : b'.sp = (b.sp + 2) % 256)
  /-- The most recent address is taken, and PC goes there. -/
  | pops {a : Int} {rest : List Int} (hsaved : saved = a :: rest)
      (hstack : b'.stack = .dedicated capacity rest) (hsp : b'.sp = (b.sp - 2) % 256)
      (hpc : b'.pc = a % 65536)

variable {all : Bool} {capacity home base : Int} {saved : List Int} {b b' : Board} {i : Instruction}

/-- Only calls and returns touch the list, and each of them by one address. -/
theorem Performs.stackMove (h : Performs all b i b') (hlist : b.stack = .dedicated capacity saved) :
    StackMove capacity saved b b' := by
  cases h with
  | @retDedicated _ a rest hstack =>
    rw [hlist] at hstack
    obtain ⟨rfl, rfl⟩ := CallStack.dedicated.inj hstack
    exact .pops rfl rfl (Word.toNat_low (b.sp - 2)) (Word.toNat_ofInt a)
  | callDedicated hstack =>
    rw [hlist] at hstack
    obtain ⟨rfl, rfl⟩ := CallStack.dedicated.inj hstack
    exact .pushes rfl (Word.toNat_low (b.sp + 2))
  | retOverlay hstack | callOverlay hstack =>
    rw [hlist] at hstack
    cases hstack
  | load => exact .stays hlist (by simp [Board.sp])
  | _ => exact .stays hlist rfl

/-! ### Between a call and its return -/

/-- The board of a routine that was called with `saved` in the list and SP at `base`, and
that is to come back to `home`. The addresses of calls inside of it lie on top. -/
def Inside (capacity home base : Int) (saved : List Int) (b : Board) : Prop :=
  ∃ nested, b.stack = .dedicated capacity (nested ++ home :: saved) ∧
    b.sp = (base + 2 * (nested.length + 1)) % 256

/-- The board on which such a routine is left. -/
structure Returned (capacity home base : Int) (saved : List Int) (b : Board) : Prop where
  pc : b.pc = home % 65536
  sp : b.sp = base % 256
  stack : b.stack = .dedicated capacity saved

theorem Inside.length_items (h : Inside capacity home base saved b) :
    saved.length < b.stack.items.length := by
  obtain ⟨nested, hstack, -⟩ := h
  rw [hstack]
  simp only [CallStack.items, List.length_reverse, List.length_append, List.length_cons]
  omega

/-- A call leads inside. -/
theorem Performs.inside {a : Fin 4096} (h : Performs all b (.call a) b')
    (hlist : b.stack = .dedicated capacity saved) :
    Inside capacity (b.pc + 2) b.sp saved b' := by
  cases h with
  | callDedicated hstack =>
    rw [hlist] at hstack
    obtain ⟨rfl, rfl⟩ := CallStack.dedicated.inj hstack
    exact ⟨[], rfl, Word.toNat_low (b.sp + 2)⟩
  | callOverlay hstack =>
    rw [hlist] at hstack
    cases hstack

/-- **An instruction inside of a routine stays inside, or it returns from the routine.** -/
theorem Inside.performs (hin : Inside capacity home base saved b) (h : Performs all b i b') :
    Inside capacity home base saved b' ∨ Returned capacity home base saved b' := by
  obtain ⟨nested, hlist, hsp⟩ := hin
  cases h.stackMove hlist with
  | stays hstack hsame => exact .inl ⟨nested, hstack, hsame.trans hsp⟩
  | pushes hstack hmoved =>
    refine .inl ⟨(b.pc + 2) :: nested, hstack, ?_⟩
    rw [hmoved, hsp, List.length_cons]
    omega
  | @pops a rest hsaved hstack hmoved hpc =>
    cases nested with
    | nil =>
      -- the address on top is that of the call itself
      obtain ⟨rfl, rfl⟩ := List.cons.inj hsaved
      refine .inr ⟨hpc, ?_, hstack⟩
      rw [hmoved, hsp, List.length_nil]
      omega
    | cons inner nested =>
      obtain ⟨-, rfl⟩ := List.cons.inj hsaved
      refine .inl ⟨nested, hstack, ?_⟩
      rw [hmoved, hsp, List.length_cons]
      omega

namespace Machine

open Instruction

variable {m m' : Machine}

/-- As long as more addresses are kept than before the call, the run is inside of the routine. -/
theorem inside_of_above {a : Fin 4096} {k : Nat} (hlist : m.board.stack = .dedicated capacity saved)
    (hcall : Denotes (m.memory.wordAt m.board.pc) (.call a)) (hrun : Completes (k + 1) m)
    (habove : ∀ j, 0 < j → j ≤ k → saved.length < (m.afterSteps j).board.stack.items.length) :
    Inside capacity (m.board.pc + 2) m.board.sp saved (m.afterSteps (k + 1)).board ∨
      Returned capacity (m.board.pc + 2) m.board.sp saved (m.afterSteps (k + 1)).board := by
  have hperforms : ∀ j < k + 1, ∃ i, Denotes _ i ∧ Performs _ (m.afterSteps j).board i
      (m.afterSteps (j + 1)).board :=
    fun j hj => performs_of_step (Exec.eq_ok_of_answer (hrun j hj))
  induction k with
  | zero =>
    obtain ⟨i, hi, hrow⟩ := hperforms 0 (Nat.succ_pos 0)
    obtain rfl := hi.unique hcall
    exact .inl (hrow.inside hlist)
  | succ k ih =>
    obtain ⟨i, -, hrow⟩ := hperforms (k + 1) (Nat.lt_succ_self _)
    have hbefore := ih (hrun.mono (Nat.le_succ _)) (fun j h0 hj => habove j h0 (Nat.le_succ_of_le hj))
      fun j hj => hperforms j (Nat.lt_succ_of_lt hj)
    rcases hbefore with hin | hreturned
    · exact hin.performs hrow
    · -- the routine cannot have been left while more addresses were kept
      have hlength := habove (k + 1) (Nat.succ_pos k) (Nat.le_refl _)
      rw [hreturned.stack] at hlength
      simp [CallStack.items] at hlength

/-- **A call is matched by its return.** In a run that begins with a call, the step that first
brings the list back to the length it had goes on after the call, and finds SP and the list
as they were. -/
theorem matching_return (m m' : Machine) (capacity : Int) (saved : List Int) (a : Fin 4096) (k : Nat)
    (hlist : m.board.stack = .dedicated capacity saved)
    (hcall : Denotes (m.memory.wordAt m.board.pc) (.call a))
    (hpos : 0 < k) (hrun : steps k m = .ok () m')
    (habove : ∀ j, 0 < j → j < k → saved.length < (m.afterSteps j).board.stack.items.length)
    (hback : m'.board.stack.items.length = saved.length) :
    m'.board.pc = (m.board.pc + 2) % 65536 ∧ m'.registers.sp = m.registers.sp ∧
      m'.board.stack = m.board.stack := by
  obtain ⟨hcompletes, rfl⟩ := steps_eq_ok_iff.mp hrun
  obtain ⟨k, rfl⟩ := Nat.exists_eq_add_one_of_ne_zero (Nat.ne_of_gt hpos)
  have hends := inside_of_above hlist hcall hcompletes fun j h0 hj => habove j h0 (Nat.lt_succ_of_le hj)
  rcases hends with hin | hreturned
  · have := hin.length_items
    omega
  · refine ⟨hreturned.pc, ?_, hreturned.stack.trans hlist.symm⟩
    have hsp := hreturned.sp
    simp only [Board.sp] at hsp
    rw [← UInt8.toNat_inj]
    have := m.registers.sp.toNat_lt
    simp only [registers] at *
    omega

/-- A machine with a routine at 4 that calls another one at 8. -/
def nesting : Machine where
  board :=
    ⟨(Memory.blank 10).setBlock 0 [0x20, 0x04, 0x00, 0x00, 0x20, 0x08, 0x00, 0xEE, 0x00, 0xEE],
      ⟨Vector.replicate 16 0, 0, 0, 0⟩, .dedicated 2 [], Screen.ofAnswers []⟩
  processor := Processor.blank true false 0
  journal := Journal.ofSetting Setting.off

/-- The outer routine comes back after both returns. -/
theorem matching_return_nesting :
    steps 4 nesting = .ok () (nesting.afterSteps 4) ∧
    (nesting.afterSteps 2).board.stack.items = [2, 6] ∧
    (nesting.afterSteps 4).board.pc = 2 ∧ (nesting.afterSteps 4).board.stack = .dedicated 2 [] := by
  have hsteps : ∀ j < 4, step.answer (nesting.afterSteps j) = .ok () := by decide +kernel
  have hdepths : ∀ j < 4, 0 < j → 0 < (nesting.afterSteps j).board.stack.items.length := by
    decide +kernel
  have hrun : steps 4 nesting = .ok () (nesting.afterSteps 4) := steps_eq_ok_iff.mpr ⟨hsteps, rfl⟩
  obtain ⟨hpc, -, hstack⟩ := matching_return nesting (nesting.afterSteps 4) 2 [] 4 4 rfl rfl
    (by decide) hrun (fun j h0 h4 => hdepths j h4 h0) (by decide +kernel)
  exact ⟨hrun, by decide +kernel, hpc, hstack⟩

end Machine

end Chip8

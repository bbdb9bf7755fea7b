import Chip8.Proofs.Commands
import Chip8.Proofs.TraceRecord

/-!
# The history of a list of return addresses

A list of return addresses is used by callers, who push and pop, and by the instructions that call
and return. `history` is the sequence of all uses that were made, whoever made them; a use that
is refused is none. `unmatched` reads off a history which addresses were saved and not taken
back. It knows nothing of a machine.

If the list was empty to begin with, it is at every point what its history says: it holds the
unmatched addresses as they were pushed, and no more of them than it has room for. SP is moved by
the same uses but is kept elsewhere, in a byte. It counts the addresses modulo 256, and
where it has wrapped the list is still whole.

* `Tracks`: list and SP are those of some unmatched addresses.
* `Performs.tracks` and `Tracks.perform`: an instruction and a command keep them so.
* `list_is_bounded_lifo`: what holds at every point of a history.
-/

namespace Chip8

/-! ### Uses of a call stack -/

/-- One use of a call stack. -/
inductive StackUse
  /-- An address is saved. -/
  | push (address : Int)
  /-- The most recent address is taken back. -/
  | pop
  deriving DecidableEq

namespace StackUse

/-- The addresses that are left after a use, the most recent one first. -/
def apply (saved : List Int) : StackUse → List Int
  | .push a => a :: saved
  | .pop => saved.tail

/-- Of the addresses `saved` and of those that are pushed then, the ones that are not taken back, the
most recent one first. -/
def unmatched (saved : List Int) : List StackUse → List Int
  | [] => saved
  | u :: uses => unmatched (u.apply saved) uses

theorem unmatched_append (saved : List Int) (uses next : List StackUse) :
    unmatched saved (uses ++ next) = unmatched (unmatched saved uses) next := by
  induction uses generalizing saved with
  | nil => rfl
  | cons u uses ih => exact ih _

end StackUse

/-- The use of the call stack that an instruction at `pc` makes. -/
def Instruction.use? (pc : Int) : Instruction → Option StackUse
  | .call _ => some (.push (pc + 2))
  | .ret => some .pop
  | _ => none

namespace Machine

open StackUse

/-- Whether a command is one of those by which a call stack is used: push, pop, or a step, which may
come to a call or to a return. -/
def Command.usesStack : Command → Bool
  | .push _ | .pop | .step => true
  | _ => false

/-- The use of the call stack that a command makes if it is not refused. A step makes that of the
instruction at PC. -/
def use? (m : Machine) : Command → Option StackUse
  | .push a => some (.push a)
  | .pop => some .pop
  | .step => (Instruction.decode? (m.memory.wordAt m.board.pc)).bind (Instruction.use? m.board.pc)
  | _ => none

/-- The uses that a command has made of the call stack: none if it faulted, and one at most. -/
def usesOf (fuel : Nat) (m : Machine) (c : Command) : List StackUse :=
  match (perform fuel c).answer m with
  | .ok _ => (m.use? c).toList
  | .error _ => []

/-- The uses that the commands have made of the call stack, the first one first. -/
def history (fuel : Nat) (m : Machine) : List Command → List StackUse
  | [] => []
  | c :: cs => usesOf fuel m c ++ history fuel ((perform fuel c).after m) cs

end Machine

/-! ### A list and its addresses -/

/-- The board keeps these addresses in a list, and SP counts them from `base` on. -/
structure Tracks (capacity base : Int) (saved : List Int) (b : Board) : Prop where
  stack : b.stack = .dedicated capacity saved
  bound : (saved.length : Int) ≤ max capacity 0
  sp : b.sp = (base + 2 * saved.length) % 256

variable {all : Bool} {capacity base a : Int} {saved : List Int} {b b' : Board} {i : Instruction}

namespace Tracks

theorem keep (h : Tracks capacity base saved b) (hstack : b'.stack = b.stack) (hsp : b'.sp = b.sp) :
    Tracks capacity base saved b' :=
  ⟨hstack.trans h.stack, h.bound, hsp.trans h.sp⟩

theorem pushed (h : Tracks capacity base saved b) (hroom : saved.length < capacity)
    (hstack : b'.stack = .dedicated capacity (a :: saved)) (hsp : b'.sp = (b.sp + 2) % 256) :
    Tracks capacity base (a :: saved) b' := by
  have hbefore := h.sp
  refine ⟨hstack, ?_, ?_⟩
  · rw [List.length_cons]
    omega
  · rw [hsp, hbefore, List.length_cons]
    omega

theorem popped (h : Tracks capacity base (a :: saved) b) (hstack : b'.stack = .dedicated capacity saved)
    (hsp : b'.sp = (b.sp - 2) % 256) : Tracks capacity base saved b' := by
  have hbefore := h.sp
  have hbound := h.bound
  rw [List.length_cons] at hbefore hbound
  refine ⟨hstack, by omega, ?_⟩
  rw [hsp, hbefore]
  omega

end Tracks

/-- **An instruction that performs makes its use of the list, and no other.** -/
theorem Performs.tracks (h : Performs all b i b') (ht : Tracks capacity base saved b) :
    Tracks capacity base (StackUse.unmatched saved (i.use? b.pc).toList) b' := by
  have hlist := ht.stack
  cases h with
  | @retDedicated _ a rest hstack =>
    rw [hlist] at hstack
    obtain ⟨rfl, rfl⟩ := CallStack.dedicated.inj hstack
    exact ht.popped rfl (Word.toNat_low (b.sp - 2))
  | callDedicated hstack hroom =>
    rw [hlist] at hstack
    obtain ⟨rfl, rfl⟩ := CallStack.dedicated.inj hstack
    exact ht.pushed hroom rfl (Word.toNat_low (b.sp + 2))
  | retOverlay hstack | callOverlay hstack =>
    rw [hlist] at hstack
    cases hstack
  | load => exact ht.keep rfl (by simp [Board.sp])
  | _ => exact ht.keep rfl rfl

/-- An instruction that fails makes none. -/
theorem Refuses.tracks {e : Fault} (h : Refuses all b i e b') (ht : Tracks capacity base saved b) :
    Tracks capacity base saved b' := by
  obtain ⟨-, -, hstack, -⟩ := h.frame
  refine ht.keep hstack ?_
  have hlist := ht.stack
  cases h with
  | callOverlay hoverlay =>
    rw [hlist] at hoverlay
    cases hoverlay
  | load => simp [Board.sp]
  | _ => rfl

namespace Machine

open Instruction StackUse

/-! ### Commands on a list -/

section

variable (fuel : Nat) {m : Machine}

theorem perform_push_list (hlist : m.board.stack = .dedicated capacity saved) (a : Int) :
    perform fuel (.push a) m =
      if capacity ≤ saved.length then .error .stackOverflow m
      else .ok .done { m with
        board := { m.board with
          registers := m.board.raised
          stack := .dedicated capacity (a :: saved) } } := by
  rw [perform_push, Board.push_dedicated hlist]
  by_cases hfull : capacity ≤ saved.length
  · rw [if_pos hfull, if_pos hfull]
  · rw [if_neg hfull, if_neg hfull]

theorem perform_pop_nil (hlist : m.board.stack = .dedicated capacity []) :
    perform fuel .pop m = .error .stackUnderflow m := by
  rw [perform_pop, Board.pop_dedicated_nil hlist]

theorem perform_pop_cons (hlist : m.board.stack = .dedicated capacity (a :: saved)) :
    perform fuel .pop m = .ok (.number a) { m with
      board := { m.board with
        registers := m.board.lowered
        stack := .dedicated capacity saved } } := by
  rw [perform_pop, Board.pop_dedicated_cons hlist]

theorem answer_push_list (hlist : m.board.stack = .dedicated capacity saved) (a : Int) :
    (perform fuel (.push a)).answer m =
      if capacity ≤ saved.length then .error .stackOverflow else .ok .done := by
  have hends := perform_push_list fuel hlist a
  by_cases hfull : capacity ≤ saved.length
  · rw [if_pos hfull] at hends ⊢
    exact Exec.answer_of_error hends
  · rw [if_neg hfull] at hends ⊢
    exact Exec.answer_of_ok hends

/-- Neither a push nor a pop touches memory, and one that is refused changes nothing at all. -/
theorem refused_use_list (hlist : m.board.stack = .dedicated capacity saved) (c : Command)
    (hc : c = .pop ∨ ∃ a, c = .push a) :
    ((perform fuel c).after m).memory = m.memory ∧
      ∀ e, (perform fuel c).answer m = .error e → (perform fuel c).after m = m := by
  -- a use is refused and leaves the machine, or it returns and leaves its memory
  have hends : (∃ e, perform fuel c m = .error e m) ∨
      ∃ r s, perform fuel c m = .ok r s ∧ s.memory = m.memory := by
    rcases hc with rfl | ⟨a, rfl⟩
    · cases saved with
      | nil => exact .inl ⟨_, perform_pop_nil fuel hlist⟩
      | cons a rest => exact .inr ⟨_, _, perform_pop_cons fuel hlist, rfl⟩
    · have hpush := perform_push_list fuel hlist a
      by_cases hfull : capacity ≤ saved.length
      · rw [if_pos hfull] at hpush
        exact .inl ⟨_, hpush⟩
      · rw [if_neg hfull] at hpush
        exact .inr ⟨_, _, hpush, rfl⟩
  rcases hends with ⟨e, hrefused⟩ | ⟨r, s, hreturned, hmemory⟩
  · rw [Exec.after_of_error hrefused]
    exact ⟨rfl, fun _ _ => rfl⟩
  · rw [Exec.after_of_ok hreturned, Exec.answer_of_ok hreturned]
    refine ⟨hmemory, fun e he => ?_⟩
    cases he

/-- A step that comes to a call saves the address after it, if the list has room. -/
theorem answer_step_call {a : Fin 4096} (hlist : m.board.stack = .dedicated capacity saved)
    (hreach : m.Reaches (.call a)) :
    step.answer m = if capacity ≤ saved.length then .error .stackOverflow else .ok () := by
  have hstep := step_of_reaches hreach
  split
  case isTrue hfull =>
    have hrow : Refuses m.processor.transferAll m.board (.call a) _ _ := .callDedicated hlist hfull
    exact Exec.answer_of_error (hstep.trans (carryOut_eq_error_iff.mpr ⟨_, hrow, rfl⟩))
  case isFalse hroom =>
    have hrow : Performs m.processor.transferAll m.board (.call a) _ := .callDedicated hlist (by omega)
    exact Exec.answer_of_ok (hstep.trans (carryOut_eq_ok_iff.mpr ⟨_, hrow, rfl⟩))

/-- A step that comes to a return is refused if there is no address to return to. -/
theorem answer_step_ret_nil (hlist : m.board.stack = .dedicated capacity [])
    (hreach : m.Reaches .ret) : step.answer m = .error .stackUnderflow := by
  have hrow : Refuses m.processor.transferAll m.board .ret _ _ := .retDedicated hlist
  have hends := (step_of_reaches hreach).trans (carryOut_eq_error_iff.mpr ⟨_, hrow, rfl⟩)
  exact Exec.answer_of_error hends

/-- Otherwise it goes to the most recent one. -/
theorem step_ret_cons (hlist : m.board.stack = .dedicated capacity (a :: saved))
    (hreach : m.Reaches .ret) : step.answer m = .ok () ∧ (step.after m).board.pc = a % 65536 := by
  have hrow : Performs m.processor.transferAll m.board .ret _ := .retDedicated hlist
  have hends := (step_of_reaches hreach).trans (carryOut_eq_ok_iff.mpr ⟨_, hrow, rfl⟩)
  refine ⟨Exec.answer_of_ok hends, ?_⟩
  rw [Exec.after_of_ok hends]
  exact Word.toNat_ofInt a

end

/-! ### Histories -/

section

variable {fuel : Nat} {m : Machine}

theorem usesOf_of_ok {c : Command} {r : Reply} {s : Machine} (h : perform fuel c m = .ok r s) :
    usesOf fuel m c = (m.use? c).toList := by
  rw [usesOf, Exec.answer_of_ok h]

theorem usesOf_of_error {c : Command} {e : Fault} {s : Machine} (h : perform fuel c m = .error e s) :
    usesOf fuel m c = [] := by
  rw [usesOf, Exec.answer_of_error h]

theorem tracks_push (h : Tracks capacity base saved m.board) (a : Int) :
    Tracks capacity base (unmatched saved (usesOf fuel m (.push a)))
      ((perform fuel (.push a)).after m).board := by
  have hends := perform_push_list fuel h.stack a
  by_cases hfull : capacity ≤ saved.length
  · rw [if_pos hfull] at hends
    rw [usesOf_of_error hends, Exec.after_of_error hends]
    exact h
  · rw [if_neg hfull] at hends
    rw [usesOf_of_ok hends, Exec.after_of_ok hends]
    exact h.pushed (by omega) rfl (Board.sp_raised m.board)

theorem tracks_pop (h : Tracks capacity base saved m.board) :
    Tracks capacity base (unmatched saved (usesOf fuel m .pop)) ((perform fuel .pop).after m).board := by
  cases saved with
  | nil =>
    have hends := perform_pop_nil fuel h.stack
    rw [usesOf_of_error hends, Exec.after_of_error hends]
    exact h
  | cons a rest =>
    have hends := perform_pop_cons fuel h.stack
    rw [usesOf_of_ok hends, Exec.after_of_ok hends]
    exact h.popped rfl (Word.toNat_low (m.board.sp - 2))

theorem tracks_step (h : Tracks capacity base saved m.board) :
    Tracks capacity base (unmatched saved (usesOf fuel m .step)) ((perform fuel .step).after m).board := by
  have hends := step_ends m
  have hperform := perform_step fuel m
  generalize step m = r at hends hperform
  cases hends with
  | performed hfit hi hrow =>
    rw [usesOf_of_ok hperform, Exec.after_of_ok hperform, use?, decode?_eq_some_iff.mpr hi]
    exact hrow.tracks h
  | refused hfit hi hrow =>
    rw [usesOf_of_error hperform, Exec.after_of_error hperform]
    exact hrow.tracks h
  | unfetched | unknown =>
    rw [usesOf_of_error hperform, Exec.after_of_error hperform]
    exact h

/-- **List and SP are at every point what the history says.** -/
theorem tracks_afterCommands (h : Tracks capacity base saved m.board) {cs : List Command}
    (hcs : ∀ c ∈ cs, c.usesStack = true) :
    Tracks capacity base (unmatched saved (history fuel m cs)) (afterCommands fuel m cs).board := by
  induction cs generalizing m saved with
  | nil => exact h
  | cons c cs ih =>
    have hnext : Tracks capacity base (unmatched saved (usesOf fuel m c))
        ((perform fuel c).after m).board := by
      have hc := hcs c List.mem_cons_self
      cases c with
      | push a => exact tracks_push h a
      | pop => exact tracks_pop h
      | step => exact tracks_step h
      | _ => cases hc
    rw [history, unmatched_append, afterCommands]
    exact ih hnext fun d hd => hcs d (List.mem_cons_of_mem c hd)

end

/-- **A list of return addresses is a bounded stack, and SP follows it.** At every point of a
history the list holds the unmatched addresses, oldest first and as they were pushed; it never
holds more than its capacity; and SP has moved by two for each of them, modulo 256. A push is
refused where the list is full and a pop where it is empty, from outside as by a call or a
return, and a refused one leaves all as it was. Any other pop gives the most recent unmatched
address. Memory is not touched. -/
theorem list_is_bounded_lifo (m : Machine) (capacity : Int) (fuel : Nat) (cs : List Command)
    (hempty : m.board.stack = .empty capacity) (hcs : ∀ c ∈ cs, c.usesStack = true) :
    let s := afterCommands fuel m cs
    let saved := unmatched [] (history fuel m cs)
    s.board.stack.items = saved.reverse ∧
    (saved.length : Int) ≤ max capacity 0 ∧
    s.board.sp = (m.board.sp + 2 * saved.length) % 256 ∧
    (∀ a, (perform fuel (.push a)).answer s =
      if capacity ≤ saved.length then .error .stackOverflow else .ok .done) ∧
    (saved = [] → (perform fuel .pop).answer s = .error .stackUnderflow) ∧
    (∀ a rest, saved = a :: rest → (perform fuel .pop).answer s = .ok (.number a)) ∧
    (∀ c, (c = .pop ∨ ∃ a, c = .push a) → ((perform fuel c).after s).memory = s.memory ∧
      ∀ e, (perform fuel c).answer s = .error e → (perform fuel c).after s = s) ∧
    (∀ a, s.Reaches (.call a) →
      step.answer s = if capacity ≤ saved.length then .error .stackOverflow else .ok ()) ∧
    (s.Reaches .ret → (saved = [] → step.answer s = .error .stackUnderflow) ∧
      ∀ a rest, saved = a :: rest →
        step.answer s = .ok () ∧ (step.after s).board.pc = a % 65536) ∧
    Fault.message .stackOverflow = "Stack overflow" ∧
    Fault.message .stackUnderflow = "Stack underflow" := by
  intro s saved
  have hstart : Tracks capacity m.board.sp [] m.board := by
    refine ⟨hempty, Int.le_max_right capacity 0, ?_⟩
    have := m.board.registers.sp.toNat_lt
    simp only [Board.sp, List.length_nil]
    omega
  have htracks : Tracks capacity m.board.sp saved s.board := tracks_afterCommands hstart hcs
  have hlist := htracks.stack
  refine ⟨by rw [hlist]; rfl, htracks.bound, htracks.sp, answer_push_list fuel hlist, ?_, ?_,
    refused_use_list fuel hlist, fun a => answer_step_call hlist, ?_, rfl, rfl⟩
  · intro hnone
    rw [hnone] at hlist
    exact Exec.answer_of_error (perform_pop_nil fuel hlist)
  · intro a rest hsome
    rw [hsome] at hlist
    exact Exec.answer_of_ok (perform_pop_cons fuel hlist)
  · refine fun hreach => ⟨fun hnone => ?_, fun a rest hsome => ?_⟩
    · rw [hnone] at hlist
      exact answer_step_ret_nil hlist hreach
    · rw [hsome] at hlist
      exact step_ret_cons hlist hreach

/-- An address that is no word is saved, another one finds no room, and then a register is set. -/
def crowding : List Command := [.push 0x12345, .push 7, .step]

/-- The address is still on the list as it was pushed, and the next step returns to it. -/
theorem list_is_bounded_lifo_crowding :
    (∀ c ∈ crowding, c.usesStack = true) ∧
    (afterCommands 0 stranded crowding).board.stack.items = [0x12345] ∧
    (afterCommands 0 stranded crowding).board.sp = 2 ∧
    (perform 0 (.push 8)).answer (afterCommands 0 stranded crowding) = .error .stackOverflow ∧
    step.answer (afterCommands 0 stranded crowding) = .ok () ∧
    (step.after (afterCommands 0 stranded crowding)).board.pc = 0x2345 := by
  have hcs : ∀ c ∈ crowding, c.usesStack = true := by decide
  have hhistory : history 0 stranded crowding = [.push 0x12345] := by decide +kernel
  have hreach : (afterCommands 0 stranded crowding).Reaches .ret := by
    have hword : (afterCommands 0 stranded crowding).memory.wordAt
        (afterCommands 0 stranded crowding).board.pc = 0x00EE := by decide +kernel
    exact ⟨by decide +kernel, hword⟩
  have hpoint := list_is_bounded_lifo stranded 1 0 crowding rfl hcs
  rw [hhistory] at hpoint
  obtain ⟨hitems, -, hsp, hpush, -, -, -, -, hret, -⟩ := hpoint
  obtain ⟨hanswer, hpc⟩ := (hret hreach).2 0x12345 [] rfl
  exact ⟨hcs, hitems, hsp, hpush 8, hanswer, hpc⟩

end Machine

end Chip8

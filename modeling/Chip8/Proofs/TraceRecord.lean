import Chip8.Proofs.Mnemonics
import Chip8.Proofs.Running
import Mathlib.Control.Monad.Basic

/-!
# What a trace records

A live machine writes a line when a step has reached an instruction, before the instruction has
any effect. So a trace can be read as a record of the run: its lines stand in the order of the
steps, and each of them shows the state in which its step began.

`Reaches` says which instruction a step comes to, if it comes to one, and `traceAt` is the line
that belongs to it, made of the registers and the memory before the step. A step that cannot
fetch or that meets no instruction writes nothing. A step whose instruction fails has written its
line, and is the last one of its run.

* `output_of_reaches` and `output_of_not_reaches`: what one step writes.
* `Records`: lines that tell of the first steps, one of each and in order.
* `trace_records`: what a run writes, the report of a crash included.
-/

namespace Chip8

/-- Whether an entry is the line of an instruction. -/
def Entry.isTrace : Entry → Bool
  | .trace _ _ => true
  | _ => false

namespace Machine

open Instruction

variable {m m' s : Machine} {i : Instruction} {e : Fault}

/-! ### The line of an instruction -/

/-- What the machine has written so far, oldest entry first. -/
def output (m : Machine) : List Entry := m.journal.entries.toList

/-- The next step comes to this instruction. -/
def Reaches (m : Machine) (i : Instruction) : Prop :=
  m.board.pc + 1 ≤ m.memory.top ∧ Denotes (m.memory.wordAt m.board.pc) i

/-- The line of the next step, if it comes to this instruction. -/
def traceAt (m : Machine) (i : Instruction) : Entry :=
  .trace ⟨m.registers.v, m.registers.i, m.registers.sp, m.registers.pc, m.memory.wordAt m.board.pc⟩ i

/-- What that line says: the registers from VF down to V0, I, SP, PC and the word at PC, each in its
hexadecimal digits, and at the end a label. PC has three digits if they are enough. -/
def traceText (m : Machine) (label : String) : String :=
  "V: 0x" ++ String.join ((List.finRange 16).reverse.map fun x => Text.hexDigits 2 (m.board.reg x).toNat) ++
    " I: 0x" ++ Text.hexDigits 4 m.registers.i.toNat ++ " SP: 0x" ++ Text.hexDigits 2 m.registers.sp.toNat ++
    " PC: 0x" ++ Text.hexDigits (if m.board.pc < 0x1000 then 3 else 4) m.registers.pc.toNat ++
    " OP: 0x" ++ Text.hexDigits 4 (m.memory.wordAt m.board.pc).toNat ++ " IN: " ++ label

theorem map_hexByte_registers (m : Machine) :
    m.registers.v.toList.reverse.map Text.hexByte =
      (List.finRange 16).reverse.map fun x => Text.hexByte (m.board.reg x) := by
  have hv : m.registers.v.toList = (List.finRange 16).map m.board.reg := by
    apply List.ext_getElem
    · simp
    · intro k _ _
      simp [Board.reg, Registers.get, registers]
  rw [hv, ← List.map_reverse, List.map_map]
  rfl

/-- What a line says that shows the machine as it is: the registers from VF down to V0, I, SP, the
address of the last fetch and the last word. It ends with a label. -/
def stateText (m : Machine) (label : String) : String :=
  "V: 0x" ++ String.join ((List.finRange 16).reverse.map fun x => Text.hexByte (m.board.reg x)) ++
    " I: 0x" ++ Text.hex 4 m.board.index ++ " SP: 0x" ++ Text.hex 2 m.board.sp ++
    " PC: 0x" ++ Text.hex 3 m.processor.origin.toNat ++ " OP: 0x" ++ Text.hex 4 m.processor.opcode ++
    " IN: " ++ label

theorem text_snapshot (m : Machine) (label : String) : m.snapshot.text label = m.stateText label := by
  unfold snapshot stateText Snapshot.text
  dsimp only [Snapshot.registerText]
  rw [map_hexByte_registers]
  unfold Board.index Board.sp registers Text.hexByte
  with_reducible rfl

theorem hex_pc (m : Machine) :
    Text.hex 3 m.board.pc = Text.hexDigits (if m.board.pc < 0x1000 then 3 else 4) m.registers.pc.toNat := by
  have hpc : m.board.pc = (m.registers.pc.toNat : Int) := rfl
  have hword := m.registers.pc.toNat_lt
  rw [hpc]
  split
  case isTrue hshort => exact Text.hex_eq_hexDigits (by decide) (show _ < 4096 by omega)
  case isFalse hlong =>
    rw [Text.hex_eq_hex_succ (by decide) (show 4096 ≤ _ by omega)]
    exact Text.hex_eq_hexDigits (by decide) hword

theorem hex_wordAt (m : Memory) (a : Int) : Text.hex 4 (m.wordAt a) = Text.hexDigits 4 (m.wordAt a).toNat := by
  rw [← Memory.toNat_join_byteAt]
  exact Text.hex_eq_hexDigits (by decide) (UInt16.toNat_lt _)

/-- The line of an instruction shows the machine that has fetched it. -/
theorem stateText_fetched (m : Machine) (label : String) : m.fetched.stateText label = m.traceText label := by
  have hi : Text.hex 4 m.board.index = Text.hexDigits 4 m.registers.i.toNat :=
    Text.hex_eq_hexDigits (by decide) m.registers.i.toNat_lt
  have hsp : Text.hex 2 m.board.sp = Text.hexDigits 2 m.registers.sp.toNat :=
    Text.hex_eq_hexDigits (by decide) m.registers.sp.toNat_lt
  have hstate : m.fetched.stateText label =
      "V: 0x" ++ String.join ((List.finRange 16).reverse.map fun x => Text.hexByte (m.board.reg x)) ++
        " I: 0x" ++ Text.hex 4 m.board.index ++ " SP: 0x" ++ Text.hex 2 m.board.sp ++
        " PC: 0x" ++ Text.hex 3 m.board.pc ++ " OP: 0x" ++ Text.hex 4 (m.memory.wordAt m.board.pc) ++
        " IN: " ++ label := rfl
  rw [hstate, hi, hsp, hex_pc, hex_wordAt]
  simp only [Text.hexByte_eq_hexDigits]
  rfl

/-- The line shows the fields of the word at PC for the operands. -/
theorem text_traceAt (h : m.Reaches i) :
    (m.traceAt i).text = m.traceText (i.textFrom (Fields.ofWord (m.memory.wordAt m.board.pc))) := by
  rw [← mnemonic_eq_textFrom h.2.operandsFrom, ← stateText_fetched]
  exact text_snapshot m.fetched i.mnemonic

/-! ### What a step writes -/

theorem output_leaving (m : Machine) (i : Instruction) (b : Board) :
    (m.leaving i b).output =
      m.output ++ if m.processor.live then [.trace m.snapshot i] else [] := by
  cases hlive : m.processor.live with
  | false =>
    simp only [output, leaving, hlive, Bool.false_eq_true, ↓reduceIte, List.append_nil]
  | true => simp only [output, leaving, hlive, ↓reduceIte, Journal.record, Array.toList_push]

/-- A step never switches tracing on or off. -/
theorem live_after_step (m : Machine) : (step.after m).processor.live = m.processor.live := by
  unfold Exec.after
  have hends := step_ends m
  generalize step m = r at hends
  cases hends <;> rfl

theorem step_of_reaches (h : m.Reaches i) : step m = m.fetched.carryOut i := by
  rw [step_of_le h.1, decodeExecute_of_denotes (m := m.fetched) h.2]

/-- **A live step that comes to an instruction writes its line.** -/
theorem output_of_reaches (hlive : m.processor.live = true) (h : m.Reaches i) :
    (step.after m).output = m.output ++ [m.traceAt i] := by
  unfold Exec.after
  have hends := step_ends m
  generalize step m = r at hends
  cases hends with
  | unfetched hend => exact absurd h.1 (by omega)
  | unknown _ hnone => exact absurd h.2.emulated hnone
  | performed _ hi | refused _ hi =>
    obtain rfl := hi.unique h.2
    exact (output_leaving ..).trans (congrArg (m.output ++ ·) (if_pos hlive))

/-- **A step that comes to none writes nothing.** -/
theorem output_of_not_reaches (h : ¬∃ i, m.Reaches i) : (step.after m).output = m.output := by
  unfold Exec.after
  have hends := step_ends m
  generalize step m = r at hends
  cases hends with
  | unfetched => rfl
  | unknown => rfl
  | performed hfit hi => exact absurd ⟨_, hfit, hi⟩ h
  | refused hfit hi => exact absurd ⟨_, hfit, hi⟩ h

theorem reaches_of_completes (h : step.answer m = .ok ()) : ∃ i, m.Reaches i := by
  have hstep := Exec.eq_ok_of_answer h
  generalize step.after m = m' at hstep
  have hends := step_ends m
  rw [hstep] at hends
  cases hends with
  | performed hfit hi => exact ⟨_, hfit, hi⟩

/-! ### What a run writes -/

/-- The line tells of the next step: in which state it begins, which instruction it carries out, and what
its operands are. They are shown as the fields of the word at PC, and these are the ones that it uses. -/
def Shows (m : Machine) (line : Entry) : Prop :=
  let word := m.memory.wordAt m.board.pc
  ∃ i, Denotes word i ∧ i.OperandsFrom (Fields.ofWord word) ∧ step m = m.fetched.carryOut i ∧
    line = m.traceAt i ∧ line.text = m.traceText (i.textFrom (Fields.ofWord word))

theorem shows_traceAt (h : m.Reaches i) : m.Shows (m.traceAt i) :=
  ⟨i, h.2, h.2.operandsFrom, step_of_reaches h, rfl, text_traceAt h⟩

/-- The lines tell of the first steps of the machine, one of each and in their order. -/
def Records (s : Machine) (lines : List Entry) : Prop :=
  ∀ j (h : j < lines.length), (s.afterSteps j).Shows lines[j]

theorem Records.snoc {lines : List Entry} {line : Entry} (h : Records s lines)
    (hline : (s.afterSteps lines.length).Shows line) : Records s (lines ++ [line]) := by
  intro j hj
  rcases Nat.lt_or_ge j lines.length with hlt | hge
  · rw [List.getElem_append_left hlt]
    exact h j hlt
  · have hlast : j = lines.length := by
      rw [List.length_append, List.length_singleton] at hj
      omega
    subst hlast
    rw [List.getElem_concat_length rfl]
    exact hline

theorem live_afterSteps (hlive : s.processor.live = true) (n : Nat) :
    (s.afterSteps n).processor.live = true :=
  afterSteps_induction (P := fun m => m.processor.live = true)
    (fun m hm => (live_after_step m).trans hm) hlive n

/-- Steps that complete write one line each. -/
theorem records_of_completes {k : Nat} (hlive : s.processor.live = true) (h : Completes k s) :
    ∃ lines, (s.afterSteps k).output = s.output ++ lines ∧ lines.length = k ∧ Records s lines := by
  induction k with
  | zero => exact ⟨[], (List.append_nil _).symm, rfl, fun j hj => absurd hj (Nat.not_lt_zero j)⟩
  | succ k ih =>
    obtain ⟨lines, houtput, hlength, hrecords⟩ := ih (h.mono (Nat.le_succ k))
    obtain ⟨i, hi⟩ := reaches_of_completes (h k (Nat.lt_succ_self k))
    refine ⟨lines ++ [(s.afterSteps k).traceAt i], ?_, ?_, ?_⟩
    · rw [afterSteps, output_of_reaches (live_afterSteps hlive k) hi, houtput, List.append_assoc]
    · rw [List.length_append, hlength, List.length_singleton]
    · subst hlength
      exact hrecords.snoc (shows_traceAt hi)

/-- The next step fails in its instruction: there is a word to fetch, and the fault is another
one than that the word is no instruction. -/
def FailsInside (m : Machine) : Prop :=
  (∃ w, fetch.answer m = .ok w) ∧ ∃ e, step.answer m = .error e ∧ ∀ w a, e ≠ .notEmulated w a

theorem failsInside_iff_reaches (h : step.answer m = .error e) : m.FailsInside ↔ ∃ i, m.Reaches i := by
  have hstep := Exec.eq_error_of_answer h
  generalize step.after m = m' at hstep
  have hends := step_ends m
  rw [hstep] at hends
  cases hends with
  | unfetched hend =>
    refine ⟨fun ⟨⟨w, hw⟩, _⟩ => ?_, fun ⟨i, hi⟩ => absurd hi.1 (by omega)⟩
    rw [Exec.answer_of_error (fetch_of_gt hend)] at hw
    cases hw
  | unknown _ hnone =>
    refine ⟨fun ⟨_, e, he, hne⟩ => ?_, fun ⟨i, hi⟩ => absurd hi.2.emulated hnone⟩
    rw [h] at he
    cases he
    exact absurd rfl (hne _ _)
  | refused hfit hi hrow =>
    refine ⟨fun _ => ⟨_, hfit, hi⟩, fun _ => ⟨⟨_, Exec.answer_of_ok (fetch_of_le hfit)⟩, e, h, ?_⟩⟩
    rintro w a rfl
    simpa using hrow.fault

/-- A step that faults after them writes one more if it fails in its instruction. -/
theorem records_of_halts {k : Nat} (hlive : s.processor.live = true) (hbefore : Completes k s)
    (hhalts : step.answer (s.afterSteps k) = .error e) :
    ∃ lines, (step.after (s.afterSteps k)).output = s.output ++ lines ∧
      (lines.length = k ∨ lines.length = k + 1) ∧
      (lines.length = k + 1 ↔ (s.afterSteps k).FailsInside) ∧ Records s lines := by
  obtain ⟨lines, houtput, hlength, hrecords⟩ := records_of_completes hlive hbefore
  rw [failsInside_iff_reaches hhalts]
  -- the line is written before the instruction can fail
  by_cases hreach : ∃ i, (s.afterSteps k).Reaches i
  · obtain ⟨i, hi⟩ := hreach
    have hlength' : (lines ++ [(s.afterSteps k).traceAt i]).length = k + 1 := by
      rw [List.length_append, hlength, List.length_singleton]
    refine ⟨lines ++ [(s.afterSteps k).traceAt i], ?_, .inr hlength', ?_, ?_⟩
    · rw [output_of_reaches (live_afterSteps hlive k) hi, houtput, List.append_assoc]
    · exact ⟨fun _ => ⟨i, hi⟩, fun _ => hlength'⟩
    · subst hlength
      exact hrecords.snoc (shows_traceAt hi)
  · refine ⟨lines, ?_, .inl hlength, ?_, hrecords⟩
    · rw [output_of_not_reaches hreach, houtput]
    · constructor
      · intro h
        omega
      · intro h
        exact absurd h hreach

/-- The report of a crash holds no line of an instruction, also where it faults itself. -/
theorem output_reportCrash (reason : String) (m : Machine) :
    ∃ rest, ((reportCrash reason).after m).output = m.output ++ rest ∧
      ∀ e ∈ rest, e.isTrace = false := by
  simp only [Exec.after, reportCrash, record, changeJournal, Exec.bind_apply, Exec.modify_apply,
    Exec.get_apply, onBoard_apply]
  cases Board.savedAddresses m.board with
  | ok addresses b =>
    refine ⟨[.halted reason, .crash (snapshot { m with board := b }) addresses], ?_,
      by simp [Entry.isTrace]⟩
    simp only [output, Journal.record, Array.toList_push, List.append_assoc]
    rfl
  | error e b => exact ⟨[.halted reason], by simp [output, Journal.record], by simp [Entry.isTrace]⟩

/-- **A live trace is a record of the run.** Of the steps that a run takes, so many complete, and
the next one faults unless the run has reached its length. The run writes one line for each of
those that complete, one more for a last step that fails in its instruction, and after them
only the report of a crash. Each line shows the state in which its step began, with the word
at PC there and with the instruction that the step then carries out. -/
theorem trace_records (m : Machine) (hlive : m.processor.live = true) (start limit : Option Int)
    (fuel : Nat) :
    let s := m.startingAt start
    ∃ k lines rest,
      k ≤ runLength limit fuel ∧ Completes k s ∧
      (k < runLength limit fuel → ∃ e, step.answer (s.afterSteps k) = .error e) ∧
      ((run start limit fuel).after m).output = m.output ++ lines ++ rest ∧
      (∀ e ∈ rest, e.isTrace = false) ∧
      (lines.length = k ∨ lines.length = k + 1) ∧
      (lines.length = k + 1 ↔ k < runLength limit fuel ∧ (s.afterSteps k).FailsInside) ∧
      Records s lines := by
  intro s
  have hlive' : s.processor.live = true := by cases start <;> exact hlive
  have hstart : s.output = m.output := by cases start <;> rfl
  rcases completes_or_halts (runLength limit fuel) s with hall | ⟨k, hk, hbefore, e, hhalts⟩
  · obtain ⟨lines, houtput, hlength, hrecords⟩ := records_of_completes hlive' hall
    refine ⟨_, lines, [], Nat.le_refl _, hall, fun h => absurd h (Nat.lt_irrefl _), ?_, by simp,
      .inl hlength, ⟨fun h => by omega, fun h => absurd h.1 (Nat.lt_irrefl _)⟩, hrecords⟩
    rw [run_after_of_ok (steps_eq_ok_iff.mpr ⟨hall, rfl⟩), houtput, hstart, List.append_nil]
  · obtain ⟨lines, houtput, hlength, hinside, hrecords⟩ := records_of_halts hlive' hbefore hhalts
    have hstep := Exec.eq_error_of_answer hhalts
    obtain ⟨rest, hreport, hrest⟩ := output_reportCrash e.message (step.after (s.afterSteps k))
    rw [← run_after_of_error (steps_of_halts hk hbefore hstep), houtput, hstart] at hreport
    exact ⟨k, lines, rest, Nat.le_of_lt hk, hbefore, fun _ => ⟨e, hhalts⟩, hreport, hrest, hlength,
      hinside.trans (iff_and_self.mpr fun _ => hk), hrecords⟩

/-- A live machine that sets a register and then returns from a routine that it is not in. -/
def stranded : Machine where
  board :=
    ⟨(Memory.blank 4).setBlock 0 [0x60, 0x05, 0x00, 0xEE], ⟨Vector.replicate 16 0, 0, 0, 0⟩,
      .empty 1, Screen.ofAnswers []⟩
  processor := Processor.blank true true 0
  journal := Journal.ofSetting Setting.off

/-- Both of its instructions are in the trace. -/
theorem trace_records_stranded :
    stranded.processor.live = true ∧
    ∃ lines rest, ((run none none 5).after stranded).output = lines ++ rest ∧
      (∀ e ∈ rest, e.isTrace = false) ∧ lines.length = 2 ∧ Records stranded lines := by
  have hfirst : step.answer (stranded.afterSteps 0) = .ok () := by decide +kernel
  have hsecond : step.answer (stranded.afterSteps 1) = .error .stackUnderflow := by decide +kernel
  have hword : fetch.answer (stranded.afterSteps 1) = .ok 0x00EE := by decide +kernel
  obtain ⟨k, lines, rest, -, hbefore, hhalts, houtput, hrest, -, hlength, hrecords⟩ :=
    trace_records stranded rfl none none 5
  have hk : k = 1 := by
    rcases Nat.lt_trichotomy k 1 with hlt | heq | hgt
    · obtain rfl : k = 0 := by omega
      obtain ⟨e, he⟩ := hhalts (by decide)
      cases he.symm.trans hfirst
    · exact heq
    · cases (hbefore 1 hgt).symm.trans hsecond
  subst hk
  refine ⟨rfl, lines, rest, houtput, hrest, hlength.mpr ⟨by decide, ⟨_, hword⟩, _, hsecond, ?_⟩, hrecords⟩
  intro w a h
  cases h

end Machine

end Chip8

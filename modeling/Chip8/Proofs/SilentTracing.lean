import Chip8.Proofs.Commands
import Chip8.Proofs.Lockstep
import Chip8.Proofs.TraceRecord

/-!
# Tracing changes nothing

Two machines that differ only in whether they trace are given the same commands. They answer the
same, fault alike, and stay equal in all but that. What they write differs by the lines of the
instructions, and by nothing else. So a trace may be asked for without a change to what is
traced. And what the journal is told about tracing matters to processors that are built later:
one that is there already neither does nor writes anything else for it.

Both statements are about a machine and its shadow, which traces what the machine traces, or
none of it. `Shadows` relates the two. An operation is `Oblivious` if it does the same on both.
Whatever is put together from oblivious operations is oblivious, so only those that change the
processor or write to the journal have to be looked at on two machines.

* `oblivious_step` and `oblivious_run`: a step and a run, crash reports included.
* `oblivious_perform`: a command, unless it asks the journal for its setting.
* `tracing_is_silent`: any number of commands, of which any may fault.
-/

namespace Chip8

/-- Whether a machine that traces, or does not, writes the entry. -/
def Entry.shown (traces : Bool) (e : Entry) : Bool := traces || !e.isTrace

theorem Entry.shown_of_not_trace {traces : Bool} {e : Entry} (h : e.isTrace = false) :
    e.shown traces = true := by
  rw [shown, h, Bool.not_false, Bool.or_true]

/-- A listing holds no line of an instruction that is executed. -/
theorem Entry.isTrace_of_mem_listing {location : Int} {program : List UInt8} {e : Entry}
    (h : e ∈ Entry.listing location program) : e.isTrace = false := by
  fun_induction Entry.listing location program with
  | case1 location high low rest ih =>
    rcases List.mem_cons.mp h with rfl | h
    · rfl
    · exact ih h
  | case2 => exact absurd h List.not_mem_nil

namespace Machine

open Instruction Exec

/-! ### What is compared -/

/-- Whether a command depends on what the journal was told about tracing. -/
def Command.readsSetting : Command → Bool
  | .newProcessor _ | .tracing => true
  | _ => false

/-- The machine, tracing or not. -/
def withLive (m : Machine) (live : Bool) : Machine :=
  { m with processor := { m.processor with live := live } }

/-- The machine whose journal was told about tracing. -/
def told (m : Machine) (setting : Setting) : Machine :=
  { m with journal := { m.journal with setting := setting } }

/-! ### A machine and its shadow -/

/-- The second machine is as the first one, except that it traces only if `traces` holds. Since the
first one had written `before` and the second one `before'`, both have written the same, less what the
second one does not trace. -/
structure Shadows (traces : Bool) (before before' : List Entry) (m s : Machine) : Prop where
  board : s.board = m.board
  processor : s.processor = { m.processor with live := m.processor.live && traces }
  output : ∃ es, m.output = before ++ es ∧ s.output = before' ++ es.filter (Entry.shown traces)

variable {traces : Bool} {before before' : List Entry} {m s : Machine} {α β : Type}

namespace Shadows

theorem registers (h : Shadows traces before before' m s) : s.registers = m.registers :=
  congrArg Board.registers h.board

theorem snapshot (h : Shadows traces before before' m s) : s.snapshot = m.snapshot := by
  simp only [Machine.snapshot, h.registers, h.processor]

/-- Both write entries, and the shadow only those that it traces. -/
theorem extend (h : Shadows traces before before' m s) (es : List Entry) {m' s' : Machine}
    (hboard : s'.board = m'.board)
    (hprocessor : s'.processor = { m'.processor with live := m'.processor.live && traces })
    (hm : m'.output = m.output ++ es) (hs : s'.output = s.output ++ es.filter (Entry.shown traces)) :
    Shadows traces before before' m' s' := by
  obtain ⟨es', hm', hs'⟩ := h.output
  refine ⟨hboard, hprocessor, es' ++ es, ?_, ?_⟩
  · rw [hm, hm', List.append_assoc]
  · rw [hs, hs', List.filter_append, List.append_assoc]

/-- Neither writes anything. -/
theorem keep (h : Shadows traces before before' m s) {m' s' : Machine} (hboard : s'.board = m'.board)
    (hprocessor : s'.processor = { m'.processor with live := m'.processor.live && traces })
    (hm : m'.output = m.output) (hs : s'.output = s.output) : Shadows traces before before' m' s' :=
  h.extend [] hboard hprocessor (by rw [hm, List.append_nil])
    (by rw [hs, List.filter_nil, List.append_nil])

/-- **The trace of an instruction is all that it leaves differently.** -/
theorem leaving (h : Shadows traces before before' m s) (i : Instruction) (b : Board) :
    Shadows traces before before' (m.leaving i b) (s.leaving i b) := by
  have hprocessor : s.decoded.processor =
      { m.decoded.processor with live := m.decoded.processor.live && traces } := by
    simp only [decoded, h.processor]
  have hlive : s.processor.live = (m.processor.live && traces) := by rw [h.processor]
  refine h.extend _ rfl hprocessor (output_leaving m i b) ?_
  rw [output_leaving, hlive, h.snapshot]
  -- no line, a line on both, or one that the shadow leaves out
  cases m.processor.live <;> cases traces <;> rfl

end Shadows

/-! ### Operations that do the same on both -/

/-- The operation does the same on a machine and on its shadow. -/
def Oblivious (x : Exec Machine α) : Prop :=
  ∀ ⦃traces before before' m s⦄, Shadows traces before before' m s →
    Lockstep (Shadows traces before before') (x m) (x s)

theorem oblivious_pure (a : α) : Oblivious (pure a) := by
  intro traces before before' m s h
  exact .ok h

theorem Oblivious.bind {x : Exec Machine α} {f : α → Exec Machine β} (hx : Oblivious x)
    (hf : ∀ a, Oblivious (f a)) : Oblivious (x >>= f) := by
  intro traces before before' m s h
  exact (hx h).bind fun a _ _ _ h' => hf a h'

/-- An oblivious operation whose answer is passed on. -/
theorem Oblivious.replying {x : Exec Machine α} (hx : Oblivious x) (f : α → β) :
    Oblivious (x >>= fun a => pure (f a)) :=
  hx.bind fun a => oblivious_pure (f a)

/-- What goes on from something that is the same in both. -/
theorem oblivious_get_bind {f : Machine → Exec Machine α}
    (hsame : ∀ ⦃traces before before' m s⦄, Shadows traces before before' m s → f s = f m)
    (hf : ∀ m, Oblivious (f m)) : Oblivious (get >>= f) := by
  intro traces before before' m s h
  rw [bind_apply, bind_apply, get_apply, get_apply]
  dsimp only
  rw [hsame h]
  exact hf m h

theorem oblivious_onBoard (x : Exec Board α) : Oblivious (onBoard x) := by
  intro traces before before' m s h
  rw [onBoard_apply, onBoard_apply, h.board]
  cases x m.board with
  | ok a b => exact .ok (h.keep rfl h.processor rfl rfl)
  | error e b => exact .error (h.keep rfl h.processor rfl rfl)

/-- A change of the processor that has nothing to do with tracing. -/
theorem oblivious_changeProcessor {f : Processor → Processor}
    (hf : ∀ p live, f { p with live := live } = { f p with live := live }) :
    Oblivious (changeProcessor f) := by
  intro traces before before' m s h
  have hsame := congrArg Processor.live (hf m.processor m.processor.live)
  have hlive : (f m.processor).live = m.processor.live := hsame
  refine .ok (h.keep h.board ?_ rfl rfl)
  dsimp only
  rw [h.processor, hf, hlive]

/-- Entries that are no lines of instructions are written by both. -/
theorem oblivious_recordAll {es : List Entry} (hes : ∀ e ∈ es, e.isTrace = false) :
    Oblivious (changeJournal (·.recordAll es)) := by
  intro traces before before' m s h
  have hshown : es.filter (Entry.shown traces) = es :=
    List.filter_eq_self.mpr fun e he => Entry.shown_of_not_trace (hes e he)
  refine .ok (h.extend es h.board h.processor ?_ ?_)
  · exact Array.toList_appendList
  · rw [hshown]
    exact Array.toList_appendList

theorem oblivious_record {e : Entry} (he : e.isTrace = false) : Oblivious (record e) := by
  intro traces before before' m s h
  have hshown : e.shown traces = true := Entry.shown_of_not_trace he
  refine .ok (h.extend [e] h.board h.processor ?_ ?_)
  · exact Array.toList_push
  · rw [List.filter_cons_of_pos hshown]
    exact Array.toList_push

/-- A setting of the journal is for processors that are built later. -/
theorem oblivious_setTracing (setting : Setting) :
    Oblivious (changeJournal ({ · with setting := setting })) := by
  intro traces before before' m s h
  exact .ok (h.keep h.board h.processor rfl rfl)

/-! ### Steps -/

theorem oblivious_decodeExecute : Oblivious decodeExecute := by
  intro traces before before' m s h
  have hopcode : s.processor.opcode = m.processor.opcode := by rw [h.processor]
  by_cases hemulated : Emulated m.processor.opcode
  · obtain ⟨i, hi⟩ := hemulated.denotes
    have hall : s.processor.transferAll = m.processor.transferAll := by rw [h.processor]
    rw [decodeExecute_of_denotes hi, decodeExecute_of_denotes (hopcode ▸ hi), carryOut, carryOut,
      hall, h.board]
    cases execute m.processor.transferAll i m.board with
    | ok _ b => exact .ok (h.leaving i b)
    | error e b => exact .error (h.leaving i b)
  · have horigin : s.processor.origin = m.processor.origin := by rw [h.processor]
    rw [decodeExecute_of_not_emulated hemulated,
      decodeExecute_of_not_emulated (hopcode ▸ hemulated), hopcode, horigin]
    exact .error (h.keep h.board (by simp only [decoded, h.processor]) rfl rfl)

theorem oblivious_executeOpcode (opcode : Int) : Oblivious (executeOpcode opcode) := by
  have hlatch : Oblivious (latch opcode) := oblivious_changeProcessor fun _ _ => rfl
  exact hlatch.bind fun _ => oblivious_decodeExecute

theorem oblivious_fetch : Oblivious fetch := by
  refine oblivious_get_bind (fun _ _ _ _ _ h => by rw [h.registers]) fun m => ?_
  exact oblivious_onBoard _

/-- **A step does the same on both.** -/
theorem oblivious_step : Oblivious step := by
  refine oblivious_get_bind (fun _ _ _ _ _ h => by simp only [h.registers]) fun m => ?_
  have horigin : Oblivious (changeProcessor ({ · with origin := m.registers.pc })) :=
    oblivious_changeProcessor fun _ _ => rfl
  refine horigin.bind fun _ => oblivious_fetch.bind fun word => ?_
  -- from here on it is as if a caller had chosen the word
  exact oblivious_executeOpcode word.toNat

theorem oblivious_steps (n : Nat) : Oblivious (steps n) := by
  induction n with
  | zero => exact oblivious_pure ()
  | succ n ih => exact oblivious_step.bind fun _ => ih

/-! ### Runs and their reports -/

/-- A crash is reported in the same words, or the call stack cannot be read on either. -/
theorem oblivious_reportCrash (reason : String) : Oblivious (reportCrash reason) := by
  have hhalted : Oblivious (record (.halted reason)) := oblivious_record rfl
  refine hhalted.bind fun _ => (oblivious_onBoard _).bind fun addresses => ?_
  refine oblivious_get_bind (fun _ _ _ _ _ h => by rw [h.snapshot]) fun m => ?_
  exact oblivious_record rfl

theorem Oblivious.reporting {x : Exec Machine α} (hx : Oblivious x) : Oblivious (reporting x) := by
  intro traces before before' m s h
  refine (hx h).tryCatch fun e m' s' h' => ?_
  exact (oblivious_reportCrash e.message h').bind fun _ _ _ _ h'' => .error h''

/-- **A run does the same on both.** -/
theorem oblivious_run (start limit : Option Int) (fuel : Nat) : Oblivious (run start limit fuel) := by
  have hfinished : ∀ (n : Nat) (result : RunEnd),
      Oblivious (do reporting (steps n); return result : Exec Machine RunEnd) :=
    fun n result => (oblivious_steps n).reporting.replying fun _ => result
  cases start with
  | some a =>
    cases limit with
    | some n => exact (oblivious_onBoard _).bind fun _ => hfinished n.toNat (.finished n.toNat)
    | none => exact (oblivious_onBoard _).bind fun _ => hfinished fuel .unfinished
  | none =>
    cases limit with
    | some n => exact (oblivious_pure ()).bind fun _ => hfinished n.toNat (.finished n.toNat)
    | none => exact (oblivious_pure ()).bind fun _ => hfinished fuel .unfinished

/-! ### Commands -/

theorem oblivious_describe (label : String) (full : Bool) : Oblivious (describe label full) := by
  refine oblivious_get_bind (fun _ _ _ _ _ h => by rw [h.snapshot]) fun m => ?_
  cases full with
  | false => exact oblivious_pure _
  | true => exact (oblivious_onBoard _).replying _

/-- **A command does the same on both**, unless it asks for the setting of the journal. -/
theorem oblivious_perform (fuel : Nat) {c : Command} (hc : c.readsSetting = false) :
    Oblivious (perform fuel c) := by
  cases c with
  | load | readByte | readWord | readBlock | writeByte | writeWord | checkRegister | readRegister
  | writeRegister | setI | setPC | setSP | push | pop | savedAddresses | useStack | advance =>
    exact (oblivious_onBoard _).replying _
  | fetch => exact oblivious_fetch.replying _
  | step => exact oblivious_step.replying _
  | execute opcode => exact (oblivious_executeOpcode opcode).replying _
  | run start limit => exact (oblivious_run start limit fuel).replying _
  | setTracing setting => exact (oblivious_setTracing setting).replying _
  | describe label full => exact (oblivious_describe label full).replying _
  | note label =>
    refine oblivious_get_bind (fun _ _ _ _ _ h => by rw [h.snapshot]) fun m => ?_
    exact (oblivious_record rfl).replying _
  | reportCrash reason => exact (oblivious_reportCrash reason).replying _
  | list program location =>
    exact (oblivious_recordAll fun _ => Entry.isTrace_of_mem_listing).replying _
  | newProcessor | tracing => cases hc

/-- Any number of commands does the same on both. -/
theorem Shadows.commands (h : Shadows traces before before' m s) (fuel : Nat) {cs : List Command}
    (hcs : ∀ c ∈ cs, c.readsSetting = false) :
    replies fuel m cs = replies fuel s cs ∧
      Shadows traces before before' (afterCommands fuel m cs) (afterCommands fuel s cs) := by
  induction cs generalizing m s with
  | nil => exact ⟨rfl, h⟩
  | cons c cs ih =>
    have hfirst := oblivious_perform fuel (hcs c List.mem_cons_self) h
    obtain ⟨hreplies, hshadows⟩ := ih hfirst.after fun d hd => hcs d (List.mem_cons_of_mem c hd)
    exact ⟨by rw [replies, replies, hfirst.answer, hreplies], hshadows⟩

/-! ### Two machines -/

/-- The machines are equal in all but the journal and in whether they trace. -/
structure AgreeButTracing (m s : Machine) : Prop where
  memory : s.memory = m.memory
  registers : s.registers = m.registers
  stack : s.board.stack = m.board.stack
  screen : s.board.screen = m.board.screen
  transferAll : s.processor.transferAll = m.processor.transferAll
  opcode : s.processor.opcode = m.processor.opcode
  fields : s.processor.fields = m.processor.fields
  origin : s.processor.origin = m.processor.origin

theorem Shadows.agreeButTracing (h : Shadows traces before before' m s) : AgreeButTracing m s := by
  obtain ⟨hboard, hprocessor, -⟩ := h
  constructor <;> simp only [memory, Machine.registers, hboard, hprocessor]

/-- A machine that does not trace is a shadow of the one that does. -/
theorem shadows_withLive (m : Machine) :
    Shadows false m.output m.output (m.withLive true) (m.withLive false) :=
  ⟨rfl, rfl, [], (List.append_nil _).symm, (List.append_nil _).symm⟩

/-- A machine whose journal is told about tracing is a shadow that traces all. -/
theorem shadows_told (m : Machine) (setting : Setting) :
    Shadows true m.output m.output m (m.told setting) := by
  refine ⟨rfl, ?_, [], (List.append_nil _).symm, (List.append_nil _).symm⟩
  rw [Bool.and_true]
  rfl

/-- **Tracing never alters a run.** Two machines that differ only in whether they trace answer
every command alike, with the same value or the same fault, and agree afterwards. The one that
does not trace has written what the other one has, less the lines of the instructions. And
whatever its journal is told about tracing, a machine does and writes the same. -/
theorem tracing_is_silent (m : Machine) (fuel : Nat) (cs : List Command)
    (hcs : ∀ c ∈ cs, c.readsSetting = false) :
    (let live := m.withLive true
      let quiet := m.withLive false
      replies fuel live cs = replies fuel quiet cs ∧
      AgreeButTracing (afterCommands fuel live cs) (afterCommands fuel quiet cs) ∧
      ∃ es, (afterCommands fuel live cs).output = m.output ++ es ∧
        (afterCommands fuel quiet cs).output = m.output ++ es.filter (!·.isTrace)) ∧
    ∀ setting,
      replies fuel (m.told setting) cs = replies fuel m cs ∧
      (afterCommands fuel (m.told setting) cs).board = (afterCommands fuel m cs).board ∧
      (afterCommands fuel (m.told setting) cs).processor = (afterCommands fuel m cs).processor ∧
      (afterCommands fuel (m.told setting) cs).output = (afterCommands fuel m cs).output := by
  refine ⟨?_, fun setting => ?_⟩
  · obtain ⟨hreplies, hshadows⟩ := (shadows_withLive m).commands fuel hcs
    exact ⟨hreplies, hshadows.agreeButTracing, hshadows.output⟩
  · obtain ⟨hreplies, hboard, hprocessor, es, hm, hs⟩ := (shadows_told m setting).commands fuel hcs
    have hall : es.filter (Entry.shown true) = es := List.filter_eq_self.mpr fun _ _ => rfl
    rw [Bool.and_true] at hprocessor
    exact ⟨hreplies.symm, hboard, hprocessor, by rw [hm, hs, hall]⟩

/-- Commands of which two fault: a run that reports its crash, and a second address for a stack
that has room for one. -/
def probing : List Command :=
  [.step, .setTracing (.flag true), .run none none, .execute 0x1234, .push 7, .push 8]

/-- The machine that traces writes three lines more. -/
theorem tracing_is_silent_stranded :
    (∀ c ∈ probing, c.readsSetting = false) ∧
    replies 5 (stranded.withLive true) probing = replies 5 (stranded.withLive false) probing ∧
    ∃ es, (afterCommands 5 (stranded.withLive true) probing).output = es ∧ es.length = 5 ∧
      (afterCommands 5 (stranded.withLive false) probing).output = es.filter (!·.isTrace) ∧
      (es.filter (!·.isTrace)).length = 2 := by
  have hcs : ∀ c ∈ probing, c.readsSetting = false := by decide
  have hlive : (afterCommands 5 (stranded.withLive true) probing).output.length = 5 := by
    decide +kernel
  have hquiet : (afterCommands 5 (stranded.withLive false) probing).output.length = 2 := by
    decide +kernel
  obtain ⟨⟨hreplies, -, es, hes, hfilter⟩, -⟩ := tracing_is_silent stranded 5 probing hcs
  rw [hes] at hlive
  rw [hfilter] at hquiet
  exact ⟨hcs, hreplies, es, hes, hlive, hfilter, hquiet⟩

end Machine

end Chip8

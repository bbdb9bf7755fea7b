import Chip8.Launch.Session
import Chip8.Proofs.CrashReport

/-!
# How a session ends

A session reads its options, loads the program and runs it. Once a program is loaded nothing is
left that could fail but its own steps: the limit is a number of steps or there is none, and the bank is
large enough for every crash to be reported in full. So the session ends with status one where one of
its steps faults, with status zero where all of them complete, and not at all where there is no limit
and no fault. What it writes is what its steps trace, and the report.

* `output_afterSteps_eq`: what any number of steps writes, as a function of the machine.
* `load_of_le` and `load_of_gt`: which programs can be loaded, and the machine that runs them.
* `ofPlan_of_completes` and `ofPlan_of_haltsAt`: what a session makes of the steps of its machine.
* `session_follows_run`: a whole session, for all options.
-/

namespace Chip8

namespace Machine

open Instruction

variable {m : Machine} {e : Fault} {n k : Nat}

/-! ### What steps trace -/

/-- The line that the next step writes on a live machine, if it comes to an instruction. -/
def line? (m : Machine) : Option Entry :=
  if m.board.pc + 1 ≤ m.memory.top then (decode? (m.memory.wordAt m.board.pc)).map m.traceAt else none

/-- The lines that the first `n` steps write. -/
def trace (m : Machine) (n : Nat) : List Entry :=
  if m.processor.live then (List.range n).filterMap fun k => (m.afterSteps k).line? else []

theorem line?_of_reaches {i : Instruction} (h : m.Reaches i) : m.line? = some (m.traceAt i) := by
  rw [line?, if_pos h.1, decode?_eq_some_iff.mpr h.2, Option.map_some]

theorem line?_of_not_reaches (h : ¬∃ i, m.Reaches i) : m.line? = none := by
  unfold line?
  split
  case isTrue hfit =>
    rw [Option.map_eq_none_iff, Option.eq_none_iff_forall_not_mem]
    exact fun i hi => h ⟨i, hfit, decode?_eq_some_iff.mp hi⟩
  case isFalse => rfl

/-- A quiet step writes nothing. -/
theorem output_of_quiet (hquiet : m.processor.live = false) : (step.after m).output = m.output := by
  have hleaving : ∀ i b, (m.fetched.leaving i b).output = m.output := fun i b => by
    rw [output_leaving, show m.fetched.processor.live = false from hquiet]
    exact List.append_nil _
  unfold Exec.after
  have hends := step_ends m
  generalize step m = r at hends
  cases hends with
  | unfetched | unknown => rfl
  | performed | refused => exact hleaving _ _

theorem output_after_step_eq (m : Machine) :
    (step.after m).output = m.output ++ if m.processor.live then m.line?.toList else [] := by
  cases hlive : m.processor.live with
  | false => rw [output_of_quiet hlive, if_neg Bool.false_ne_true, List.append_nil]
  | true =>
    rw [if_pos rfl]
    by_cases hreach : ∃ i, m.Reaches i
    · obtain ⟨i, hi⟩ := hreach
      rw [output_of_reaches hlive hi, line?_of_reaches hi, Option.toList_some]
    · rw [output_of_not_reaches hreach, line?_of_not_reaches hreach, Option.toList_none, List.append_nil]

theorem live_afterSteps_eq (m : Machine) (n : Nat) :
    (m.afterSteps n).processor.live = m.processor.live :=
  afterSteps_induction (P := fun s => s.processor.live = m.processor.live)
    (fun s hs => (live_after_step s).trans hs) rfl n

theorem trace_succ (m : Machine) (n : Nat) :
    m.trace (n + 1) =
      m.trace n ++ if (m.afterSteps n).processor.live then (m.afterSteps n).line?.toList else [] := by
  rw [live_afterSteps_eq, trace, trace]
  split
  · rw [List.range_succ, List.filterMap_append]
    cases hline : (m.afterSteps n).line? <;> simp [hline]
  · rfl

/-- **What steps write is their trace.** -/
theorem output_afterSteps_eq (m : Machine) (n : Nat) :
    (m.afterSteps n).output = m.output ++ m.trace n := by
  induction n with
  | zero =>
    rw [trace]
    split <;> exact (List.append_nil _).symm
  | succ n ih => rw [afterSteps, output_after_step_eq, ih, trace_succ, List.append_assoc]

/-! ### The machine of a session -/

/-- The machine of the usual size with a program where programs are loaded. -/
def launched (program : List UInt8) (overlayStack transferAll : Bool) (tracing : Setting) : Machine :=
  build ((Memory.blank memorySize).setBlock programStart program)
    (if overlayStack then .overlay else .empty CallStack.usualDepth) (Screen.ofAnswers []) transferAll tracing

/-- A machine of 4096 bytes that is about to execute the first instruction of a program. Nothing
else has happened on it yet. -/
structure Ready (program : List UInt8) (m : Machine) : Prop where
  size : m.memory.size = 0x1000
  /-- The program is in memory from `0x200` on, and the other bytes are zero. -/
  bytes : ∀ a, m.memory.byteAt a =
    if 0x200 ≤ a ∧ a < 0x200 + program.length then program.getD (a - 0x200).toNat 0 else 0
  pc : m.board.pc = 0x200
  sp : m.board.sp = 0
  index : m.board.index = 0
  registers : ∀ x, m.board.reg x = 0
  requests : m.board.screen.requests = #[]
  output : m.output = []

section

variable (program : List UInt8) (overlayStack transferAll : Bool) (tracing : Setting)

theorem ready_launched (hfit : program.length ≤ 0xE00) :
    (launched program overlayStack transferAll tracing).Ready program := by
  have hstart : programStart = 0x200 := rfl
  have htop : (Memory.blank memorySize).top = 0xFFF := rfl
  refine ⟨Memory.size_setBlock _, fun a => ?_, rfl, rfl, rfl, fun x => ?_, rfl, rfl⟩
  · have hplaced := Memory.byteAt_setBlock (m := Memory.blank memorySize) (a := programStart) (c := a) program
      (by decide) (by rw [hstart, htop]; omega)
    rw [Memory.byteAt_blank] at hplaced
    exact hplaced
  · simp [launched, build, Board.reg, Registers.get, Registers.initial]

theorem programStart_mem : programStart ∈ Memory.blank memorySize := by decide

theorem load_of_le (hfit : program.length ≤ 0xE00) :
    Plan.load program overlayStack transferAll tracing =
      .ok (launched program overlayStack transferAll tracing) := by
  have hend : ¬(program ≠ [] ∧ programStart + program.length - 1 ∉ Memory.blank memorySize) := by
    rintro ⟨hne, hout⟩
    have hpos := List.length_pos_iff.mpr hne
    rw [Memory.mem_blank, programStart, memorySize] at hout
    omega
  rw [Plan.load, Memory.writeBlock_eq, if_neg (not_not_intro programStart_mem), if_neg hend]
  rfl

theorem load_of_gt (hlong : 0xE00 < program.length) :
    Plan.load program overlayStack transferAll tracing =
      .error (.outOfBounds (0x200 + program.length - 1) 0xFFF) := by
  have hend : program ≠ [] ∧ programStart + program.length - 1 ∉ Memory.blank memorySize := by
    refine ⟨List.length_pos_iff.mp (by omega), fun hin => ?_⟩
    rw [Memory.mem_blank, programStart, memorySize] at hin
    omega
  rw [Plan.load, Memory.writeBlock_eq, if_neg (not_not_intro programStart_mem), if_pos hend]
  rfl

end

/-! ### The first fault -/

/-- The first `k` steps complete and the next one faults. -/
def HaltsAt (m : Machine) (k : Nat) (e : Fault) : Prop :=
  Completes k m ∧ step.answer (m.afterSteps k) = .error e

theorem completes_or_haltsAt (m : Machine) (n : Nat) : Completes n m ∨ ∃ k < n, ∃ e, m.HaltsAt k e := by
  rcases completes_or_halts n m with hall | ⟨k, hk, hbefore, e, hhalts⟩
  · exact .inl hall
  · exact .inr ⟨k, hk, e, hbefore, hhalts⟩

/-- The report of this fault: its words, and the state that its step has left. -/
def crashReport (m : Machine) (k : Nat) (e : Fault) : List Entry :=
  [.halted e.message, .crash (m.afterSteps (k + 1)).snapshot (m.afterSteps (k + 1)).board.stackView]

theorem size_afterSteps (m : Machine) (n : Nat) : (m.afterSteps n).memory.size = m.memory.size := by
  have htop := top_afterSteps m n
  rw [Memory.top_def, Memory.top_def] at htop
  omega

end Machine

namespace Session

open Machine

variable {m : Machine} {l : Limit} {fuel k : Nat} {e : Fault}

/-! ### A session that runs a machine -/

theorem ofPlan_of_completes (hstart : m.startingAt (some programStart) = m) (hempty : m.output = [])
    (h : Completes (runLength l.count? fuel) m) :
    ofPlan fuel (.run m l) =
      ⟨m.trace (runLength l.count? fuel), if l.count? = none then .unfinished else .exited 0⟩ := by
  have hwritten := output_afterSteps_eq m (runLength l.count? fuel)
  rw [hempty, List.nil_append] at hwritten
  have hsteps : steps (runLength l.count? fuel) (m.startingAt (some programStart)) =
      .ok () (m.afterSteps (runLength l.count? fuel)) := by
    rw [hstart]
    exact steps_eq_ok_iff.mpr ⟨h, rfl⟩
  rw [ofPlan, run_of_ok hsteps, ← hwritten]
  cases l.count? <;> rfl

theorem ofPlan_of_haltsAt (hstart : m.startingAt (some programStart) = m) (hempty : m.output = [])
    (hsize : 256 ≤ m.memory.size) (hk : k < runLength l.count? fuel) (h : m.HaltsAt k e) :
    ofPlan fuel (.run m l) = ⟨m.trace (k + 1) ++ m.crashReport k e, .exited 1⟩ := by
  obtain ⟨hbefore, hhalts⟩ := h
  have hwritten := output_afterSteps_eq m (k + 1)
  rw [hempty, List.nil_append] at hwritten
  have hread : (m.afterSteps (k + 1)).board.StackReadable :=
    Board.stackReadable_of_le (by rw [← size_afterSteps m (k + 1)] at hsize; exact hsize)
  have hfault : step ((m.startingAt (some programStart)).afterSteps k) = .error e (m.afterSteps (k + 1)) := by
    rw [hstart]
    exact Exec.eq_error_of_answer hhalts
  have hrun := run_of_halts_of_readable hk (by rw [hstart]; exact hbefore) hfault hread
  have houtput := output_crashed (m.afterSteps (k + 1)) e.message
  rw [hwritten] at houtput
  rw [ofPlan, hrun]
  exact congrArg (Session.mk · (.exited 1)) houtput

/-- Followed for any number of steps, the session is a run of the machine with this limit: what its
steps write, and where one of them faults, the report of that. -/
structure Follows (m : Machine) (limit : Option Nat) (session : Nat → Session) : Prop where
  completes : ∀ fuel, Completes (limit.getD fuel) m →
    session fuel = ⟨m.trace (limit.getD fuel), if limit = none then .unfinished else .exited 0⟩
  halts : ∀ fuel k e, k < limit.getD fuel → m.HaltsAt k e →
    session fuel = ⟨m.trace (k + 1) ++ m.crashReport k e, .exited 1⟩

/-- A session ends with this status, if it is only followed for long enough. -/
def Returns (session : Nat → Session) (status : Nat) : Prop :=
  ∃ enough, ∀ fuel, enough ≤ fuel → (session fuel).ending = .exited status

namespace Follows

variable {limit : Option Nat} {session : Nat → Session}

theorem ending_of_completes (h : Follows m limit session) (hall : Completes (limit.getD fuel) m) :
    (session fuel).ending = if limit = none then .unfinished else .exited 0 := by
  rw [h.completes fuel hall]

theorem ending_of_halts (h : Follows m limit session) (hk : k < limit.getD fuel) (hhalts : m.HaltsAt k e) :
    (session fuel).ending = .exited 1 := by
  rw [h.halts fuel k e hk hhalts]

/-- **The three ways in which a session is found.** -/
theorem ending_cases (h : Follows m limit session) (fuel : Nat) :
    (limit = none ∧ Completes fuel m ∧ (session fuel).ending = .unfinished) ∨
    (∃ n ∈ limit, Completes n m ∧ (session fuel).ending = .exited 0) ∨
    ∃ k e, k < limit.getD fuel ∧ m.HaltsAt k e ∧ (session fuel).ending = .exited 1 := by
  rcases completes_or_haltsAt m (limit.getD fuel) with hall | ⟨k, hk, e, hhalts⟩
  · have hend := h.ending_of_completes hall
    cases limit with
    | none => exact .inl ⟨rfl, hall, hend⟩
    | some n => exact .inr (.inl ⟨n, rfl, hall, hend⟩)
  · exact .inr (.inr ⟨k, e, hk, hhalts, h.ending_of_halts hk hhalts⟩)

theorem ending_ne_failed (h : Follows m limit session) (e : SessionError) :
    (session fuel).ending ≠ .failed e := by
  rcases h.ending_cases fuel with ⟨-, -, hend⟩ | ⟨n, -, -, hend⟩ | ⟨k, e', -, -, hend⟩ <;>
    · rw [hend]
      nofun

/-- The status is one if and only if a step faults that the limit allows. -/
theorem returns_one_iff (h : Follows m limit session) :
    Returns session 1 ↔ ∃ k e, (∀ n ∈ limit, k < n) ∧ m.HaltsAt k e := by
  constructor
  · rintro ⟨enough, hends⟩
    have hended := hends enough (Nat.le_refl _)
    rcases h.ending_cases enough with ⟨-, -, hend⟩ | ⟨n, -, -, hend⟩ | ⟨k, e, hk, hhalts, -⟩
    · cases hend.symm.trans hended
    · cases hend.symm.trans hended
    · refine ⟨k, e, fun n hn => ?_, hhalts⟩
      rwa [Option.mem_def.mp hn] at hk
  · rintro ⟨k, e, hbelow, hhalts⟩
    refine ⟨k + 1, fun fuel hfuel => h.ending_of_halts ?_ hhalts⟩
    cases hlimit : limit with
    | none => exact hfuel
    | some n => exact hbelow n hlimit

/-- The status is zero if and only if there is a limit and all steps that it allows complete. -/
theorem returns_zero_iff (h : Follows m limit session) :
    Returns session 0 ↔ ∃ n ∈ limit, Completes n m := by
  constructor
  · rintro ⟨enough, hends⟩
    have hended := hends enough (Nat.le_refl _)
    rcases h.ending_cases enough with ⟨-, -, hend⟩ | ⟨n, hn, hall, -⟩ | ⟨k, e, -, -, hend⟩
    · cases hend.symm.trans hended
    · exact ⟨n, hn, hall⟩
    · cases hend.symm.trans hended
  · rintro ⟨n, hn, hall⟩
    obtain rfl := Option.mem_def.mp hn
    exact ⟨0, fun fuel _ => h.ending_of_completes hall⟩

/-- It does not end if and only if there is no limit and all steps complete. -/
theorem unfinished_iff (h : Follows m limit session) :
    (∀ fuel, (session fuel).ending = .unfinished) ↔ limit = none ∧ ∀ n, Completes n m := by
  constructor
  · intro hnever
    have hcompletes : ∀ fuel, limit = none ∧ Completes fuel m := fun fuel => by
      rcases h.ending_cases fuel with ⟨hnone, hall, -⟩ | ⟨n, -, -, hend⟩ | ⟨k, e, -, -, hend⟩
      · exact ⟨hnone, hall⟩
      · cases hend.symm.trans (hnever fuel)
      · cases hend.symm.trans (hnever fuel)
    exact ⟨(hcompletes 0).1, fun n => (hcompletes n).2⟩
  · rintro ⟨rfl, hall⟩ fuel
    exact h.ending_of_completes (hall fuel)

end Follows

/-! ### A session from its options -/

/-- The limit of a caller who gives a number or leaves it open. -/
def limitOf : Option Int → Limit
  | none => .usual
  | some n => .ofInt n

/-- How many steps it allows. Zero takes the limit away, and below that no step is allowed. -/
def stepLimit : Option Int → Option Nat
  | none => some 100
  | some n => if n = 0 then none else some n.toNat

theorem map_count?_limitOf (cycles : Option Int) :
    (limitOf cycles).count?.map Int.toNat = stepLimit cycles := by
  cases cycles with
  | none => rfl
  | some n =>
    rw [limitOf, Limit.ofInt, stepLimit]
    split <;> rfl

theorem runLength_limitOf (cycles : Option Int) (fuel : Nat) :
    runLength (limitOf cycles).count? fuel = (stepLimit cycles).getD fuel := by
  rw [runLength, map_count?_limitOf]

theorem count?_limitOf_eq_none (cycles : Option Int) :
    (limitOf cycles).count? = none ↔ stepLimit cycles = none := by
  rw [← map_count?_limitOf, Option.map_eq_none_iff]

/-- A switch that is on unless it was switched off. -/
theorem isOnOr_true_iff {s : Setting} : s.isOnOr true = true ↔ s = .unset ∨ s.isOn = true := by
  cases s <;> simp [Setting.isOnOr]

/-- Options of which none is missing. -/
def optionsOf (filename : String) (cycles : Option Int) (list debug overlayStack transferAll : Setting) :
    Options where
  filename := some filename
  cycles := some (limitOf cycles)
  list := some list
  debug := some debug
  overlayStack := some overlayStack
  transferAll := some transferAll

section

variable {files : String → Except FileError (List UInt8)} {filename : String} {program : List UInt8}
  {list : Setting} (hfile : files filename = .ok program) (cycles : Option Int)
  (debug overlayStack transferAll : Setting) (fuel : Nat)

include hfile

theorem launch_of_list (hlist : list.isOn = true) :
    launch files fuel (optionsOf filename cycles list debug overlayStack transferAll) =
      ⟨Entry.listing programStart program, .exited 0⟩ := by
  simp [launch, Plan.ofOptions, optionsOf, Plan.require, hfile, hlist, ofPlan, Except.mapError, bind,
    Except.bind, pure, Except.pure]

theorem launch_of_gt (hlist : list.isOn = false) (hlong : 0xE00 < program.length) :
    launch files fuel (optionsOf filename cycles list debug overlayStack transferAll) =
      ⟨[], .failed (.load (.outOfBounds (0x200 + program.length - 1) 0xFFF))⟩ := by
  simp [launch, Plan.ofOptions, optionsOf, Plan.require, hfile, hlist, load_of_gt _ _ _ _ hlong,
    Except.mapError, bind, Except.bind]

theorem launch_of_le (hlist : list.isOn = false) (hfit : program.length ≤ 0xE00) :
    launch files fuel (optionsOf filename cycles list debug overlayStack transferAll) =
      ofPlan fuel (.run (launched program overlayStack.isOn (transferAll.isOnOr true) debug)
        (limitOf cycles)) := by
  simp [launch, Plan.ofOptions, optionsOf, Plan.require, hfile, hlist, load_of_le _ _ _ _ hfit,
    Except.mapError, bind, Except.bind, pure, Except.pure]

/-- Where the program can be loaded, the session is a run of it. -/
theorem follows_launch (hlist : list.isOn = false) (hfit : program.length ≤ 0xE00) :
    Follows (launched program overlayStack.isOn (transferAll.isOnOr true) debug) (stepLimit cycles)
      fun fuel => launch files fuel (optionsOf filename cycles list debug overlayStack transferAll) := by
  have hready := ready_launched program overlayStack.isOn (transferAll.isOnOr true) debug hfit
  constructor
  · intro fuel hall
    rw [← runLength_limitOf] at hall ⊢
    simp only [launch_of_le hfile cycles debug overlayStack transferAll fuel hlist hfit,
      ofPlan_of_completes rfl hready.output hall, count?_limitOf_eq_none]
  · intro fuel k e hk hhalts
    rw [← runLength_limitOf] at hk
    have hsize := hready.size
    simp only [launch_of_le hfile cycles debug overlayStack transferAll fuel hlist hfit]
    exact ofPlan_of_haltsAt rfl hready.output (by omega) hk hhalts

end

/-- **A session ends as the run of its program does.** Let a program be read and no option be
missing. If it is to be listed, the listing is all that happens. If it does not fit into memory, the
session fails with the last address that it would need, and reports nothing. Otherwise it never
fails. It executes the program on a machine of 4096 bytes: at most 100 steps if no number was
given, any number of them if that was zero, and none if it was below. It ends with status one if and
only if one of these steps faults, and with status zero if and only if their number is limited and
all of them complete. It writes the banner, the lines of the steps that were taken if they are to be
traced, and then the report of the fault, if there was one. -/
theorem session_follows_run (files : String → Except FileError (List UInt8)) (filename : String)
    (program : List UInt8) (hfile : files filename = .ok program) (cycles : Option Int)
    (list debug overlayStack transferAll : Setting) :
    let session := fun fuel =>
      launch files fuel (optionsOf filename cycles list debug overlayStack transferAll)
    let m := launched program overlayStack.isOn (transferAll.isOnOr true) debug
    let limit := stepLimit cycles
    (list.isOn = true → ∀ fuel, session fuel = ⟨Entry.listing programStart program, .exited 0⟩) ∧
    (list.isOn = false → 0xE00 < program.length → ∀ fuel,
      session fuel = ⟨[], .failed (.load (.outOfBounds (0x200 + program.length - 1) 0xFFF))⟩) ∧
    (list.isOn = false → program.length ≤ 0xE00 →
      m.Ready program ∧
      m.board.stack = (if overlayStack.isOn then .overlay else .dedicated 16 []) ∧
      (m.processor.transferAll = true ↔ transferAll = .unset ∨ transferAll.isOn = true) ∧
      (∀ n, m.trace n =
        if debug.isOn then (List.range n).filterMap fun k => (m.afterSteps k).line? else []) ∧
      (∀ fuel e, (session fuel).ending ≠ .failed e) ∧
      (Returns session 1 ↔ ∃ k e, (∀ n ∈ limit, k < n) ∧ m.HaltsAt k e) ∧
      (Returns session 0 ↔ ∃ n ∈ limit, Completes n m) ∧
      ((∀ fuel, (session fuel).ending = .unfinished) ↔ limit = none ∧ ∀ n, Completes n m) ∧
      Follows m limit session) ∧
    ∀ fuel, (session fuel).output =
      banner ++ "\n" ++ String.join ((session fuel).entries.map fun e => e.text ++ "\n") := by
  intro session m limit
  refine ⟨fun hlist fuel => launch_of_list hfile cycles debug overlayStack transferAll fuel hlist,
    fun hlist hlong fuel => launch_of_gt hfile cycles debug overlayStack transferAll fuel hlist hlong,
    fun hlist hfit => ?_, fun _ => rfl⟩
  have hfollows : Follows m limit session :=
    follows_launch hfile cycles debug overlayStack transferAll hlist hfit
  exact ⟨ready_launched program _ _ debug hfit, rfl, isOnOr_true_iff, fun _ => rfl,
    fun fuel => hfollows.ending_ne_failed, hfollows.returns_one_iff, hfollows.returns_zero_iff,
    hfollows.unfinished_iff, hfollows⟩

/-- The options of a caller who traces a program without a limit. -/
def traced : Options := optionsOf "program" (some 0) .off (.flag true) .unset .unset

/-- A program that returns from a routine that it is not in ends with status one. Its one step and the
report of the fault are written. -/
theorem session_follows_run_returning :
    let session := fun fuel => launch (fun _ => .ok [0x00, 0xEE]) fuel traced
    let m := launched [0x00, 0xEE] Setting.unset.isOn (Setting.unset.isOnOr true) (.flag true)
    Returns session 1 ∧
    ∀ fuel, 0 < fuel → (session fuel).entries = m.trace 1 ++ m.crashReport 0 .stackUnderflow := by
  intro session m
  have hhalts : m.HaltsAt 0 .stackUnderflow := ⟨completes_zero, by decide +kernel⟩
  obtain ⟨-, -, hrun, -⟩ := session_follows_run (fun _ => .ok [0x00, 0xEE]) "program" [0x00, 0xEE] rfl
    (some 0) .off (.flag true) .unset .unset
  obtain ⟨-, -, -, -, -, hone, -, -, hfollows⟩ := hrun rfl (by decide)
  refine ⟨hone.mpr ⟨0, _, nofun, hhalts⟩, fun fuel hfuel => ?_⟩
  have hsession : session fuel = _ := hfollows.halts fuel 0 _ hfuel hhalts
  rw [hsession]

end Session

end Chip8

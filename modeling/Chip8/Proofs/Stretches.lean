import Chip8.Launch.Stretch
import Chip8.Proofs.RunLimits
import Chip8.Proofs.SilentTracing

/-!
# Stretches make a session

What is written stretch by stretch is what one run reports that is as long as the stretches together. A
stretch that reaches its end is followed by a run of the rest, because runs compose. That the journal is
emptied between two stretches makes no difference to what is done, and only takes from the second one what
the first one has reported. A stretch that a fault stops ends the session as the fault ends the run.

* `Session.ofRun_emptied`: a run of a machine whose journal was emptied.
* `Stretch.session_ongoing`: so many stretches of a run.
* `Stretch.session_opening`: so many stretches of a session, for all options.
-/

namespace Chip8

open Machine

/-! ### The session of a run -/

namespace Session

/-- The session of a run that has ended in this way. -/
def ofRun : EStateM.Result Fault Machine RunEnd → Session
  | .ok (.finished _) m => ⟨m.output, .exited 0⟩
  | .ok .unfinished m => ⟨m.output, .unfinished⟩
  | .error _ m => ⟨m.output, .exited 1⟩

/-- The session with other reports before its own. -/
def behind (s : Session) (before : List Entry) : Session := ⟨before ++ s.entries, s.ending⟩

theorem ofPlan_run (fuel : Nat) (m : Machine) (l : Limit) :
    ofPlan fuel (.run m l) = ofRun (run (some programStart) l.count? fuel m) := by
  rw [ofPlan]
  cases run (some programStart) l.count? fuel m with
  | ok result s => cases result <;> rfl
  | error e s => rfl

/-- How many instructions were executed before is not part of a session. -/
theorem ofRun_countingFrom (count : Nat) (x : Exec Machine RunEnd) (m : Machine) :
    ofRun ((RunEnd.countingFrom count <$> x) m) = ofRun (x m) := by
  rw [Exec.map_apply]
  cases x m with
  | ok result s => cases result <;> rfl
  | error e s => rfl

/-- Two machines of which one traces what the other one does make the same session, each behind what it
had written before. -/
theorem ofRun_of_lockstep {before : List Entry} {r r' : EStateM.Result Fault Machine RunEnd}
    (h : Exec.Lockstep (Shadows true before []) r r') : ofRun r = (ofRun r').behind before := by
  have hall (es : List Entry) : es.filter (Entry.shown true) = es := List.filter_eq_self.mpr fun _ _ => rfl
  cases h with
  | @ok result s t hshadows =>
    obtain ⟨-, -, es, hs, ht⟩ := hshadows
    rw [hall] at ht
    cases result <;> simp [ofRun, behind, hs, ht]
  | error hshadows =>
    obtain ⟨-, -, es, hs, ht⟩ := hshadows
    rw [hall] at ht
    simp [ofRun, behind, hs, ht]

/-- **A machine whose journal was emptied goes on as it would have done**, and what it had reported before is
all that is missing. -/
theorem ofRun_emptied (m : Machine) (start limit : Option Int) (fuel : Nat) :
    ofRun (run start limit fuel m) = (ofRun (run start limit fuel m.emptied)).behind m.output := by
  apply ofRun_of_lockstep
  apply oblivious_run start limit fuel
  refine ⟨rfl, ?_, [], (List.append_nil _).symm, rfl⟩
  rw [Bool.and_true]
  rfl

end Session

/-! ### One stretch -/

open Session

namespace Ongoing

variable {m s : Machine} {limit : Option Int} {fuel count : Nat} {e : Fault}

/-- The last stretch of a run is all that was left of it. -/
theorem session_stretch_of_le {n : Int} (hn : n ≤ stretchLength) :
    (stretch ⟨m, some n⟩).session count = ofRun (run none (some n) fuel m) := by
  have hlength : min (stretchLength : Int) n = n := by omega
  have hlast : (some (n - n)).any (· ≤ 0) = true := by simp
  simp only [Ongoing.stretch, Option.map_some, Option.getD_some, hlength, hlast, ↓reduceIte]
  have hrun : run none (some n) 0 m = run none (some n) fuel m := rfl
  rw [hrun]
  cases hresult : run none (some n) fuel m with
  | ok result s =>
    obtain ⟨rfl, -⟩ := completes_of_run_ok hresult
    exact Stretch.session_exited ..
  | error e s => exact Stretch.session_exited ..

section

variable (hlimit : ∀ n ∈ limit, (stretchLength : Int) < n)

include hlimit

theorem stretch_of_lt :
    stretch ⟨m, limit⟩ = match run none (some (stretchLength : Int)) 0 m with
      | .error _ s => ⟨s.output, .inr 1⟩
      | .ok _ s => ⟨s.output, .inl ⟨s.emptied, limit.map (· - (stretchLength : Int))⟩⟩ := by
  cases limit with
  | none => rfl
  | some n =>
    have hn := hlimit n rfl
    have hlength : min (stretchLength : Int) n = stretchLength := by omega
    have hmore : (some (n - stretchLength)).any (· ≤ 0) = false := by simpa using by omega
    simp only [Ongoing.stretch, Option.map_some, Option.getD_some, hlength, hmore, Bool.false_eq_true, ↓reduceIte]
    rfl

/-- A longer run is taken up to the end of the stretch and goes on from there. -/
theorem stretch_of_steps_ok (h : steps stretchLength m = .ok () s) :
    stretch ⟨m, limit⟩ =
      ⟨s.output, .inl ⟨s.emptied, limit.map (· - (stretchLength : Int))⟩⟩ := by
  have hrun : run none (some (stretchLength : Int)) 0 m = _ := run_of_ok h
  rw [stretch_of_lt hlimit, hrun]

/-- A fault ends the stretch and the run alike. -/
theorem session_stretch_of_steps_error (h : steps stretchLength m = .error e s) :
    (stretch ⟨m, limit⟩).session count = ofRun (run none limit (stretchLength + fuel) m) := by
  have hlength : stretchLength ≤ runLength limit (stretchLength + fuel) := by
    cases limit with
    | none => exact Nat.le_add_right _ _
    | some n =>
      have hn := hlimit n rfl
      show stretchLength ≤ n.toNat
      omega
  obtain ⟨k, hk, hbefore, hhalts⟩ := steps_eq_error_iff.mp h
  have hstretch : run none (some (stretchLength : Int)) 0 m = _ := run_of_error h
  have hrun : run none limit (stretchLength + fuel) m = _ :=
    run_of_error (steps_of_halts (Nat.lt_of_lt_of_le hk hlength) hbefore hhalts)
  rw [stretch_of_lt hlimit, hstretch, hrun]
  cases reportCrash e.message s <;> exact Stretch.session_exited ..

end

end Ongoing

/-! ### So many stretches -/

namespace Stretch

open Ongoing

variable {m : Machine} {limit : Option Int} {count : Nat}

theorem session_behind (es : List Entry) (next : Ongoing ⊕ Nat) (count : Nat) :
    (Stretch.mk es next).session count = ((Stretch.mk [] next).session count).behind es := by
  cases next with
  | inr status => simp [behind]
  | inl r => cases count <;> simp [session_succ, behind]

/-- **So many stretches make the session of a run** that is as long as they are together. -/
theorem session_ongoing (hempty : m.output = [])
    (hlimit : ∀ n ∈ limit, 0 < count ∧ n ≤ stretchLength * count) :
    (Stretch.mk [] (.inl ⟨m, limit⟩)).session count =
      ofRun (run none limit (stretchLength * count) m) := by
  induction count generalizing m limit with
  | zero =>
    cases limit with
    | none =>
      have hrun : run none none (stretchLength * 0) m = .ok .unfinished m := rfl
      rw [hrun, ofRun, hempty]
      rfl
    | some n => exact absurd (hlimit n rfl).1 (Nat.lt_irrefl 0)
  | succ count ih =>
    have htotal : stretchLength * (count + 1) = stretchLength + stretchLength * count := by
      rw [Nat.mul_succ, Nat.add_comm]
    rw [session_succ, List.nil_append, htotal]
    by_cases hmore : ∀ n ∈ limit, (stretchLength : Int) < n
    · cases hsteps : steps stretchLength m with
      | ok u s =>
        -- the rest of the run begins with an empty journal
        have hrest : ∀ n ∈ limit.map (· - (stretchLength : Int)), 0 < count ∧ n ≤ stretchLength * count := by
          intro rest hrest
          obtain ⟨n, hn, rfl⟩ := Option.map_eq_some_iff.mp hrest
          have hlong := hmore n hn
          obtain ⟨-, henough⟩ := hlimit n hn
          simp only [stretchLength] at hlong henough ⊢
          omega
        have hrun : run none limit (stretchLength + stretchLength * count) m = _ :=
          run_add_of_le (fun n hn => Int.le_of_lt (hmore n hn)) hsteps
        rw [stretch_of_steps_ok hmore hsteps, session_behind, ih rfl hrest, hrun, ofRun_countingFrom,
          ← ofRun_emptied]
      | error e s => exact session_stretch_of_steps_error hmore hsteps
    · -- the limit is reached in this stretch
      obtain ⟨n, hn, hle⟩ : ∃ n ∈ limit, n ≤ (stretchLength : Int) := by
        simpa only [not_forall, Int.not_lt, exists_prop] using hmore
      obtain rfl := Option.mem_def.mp hn
      exact session_stretch_of_le hle

end Stretch

/-! ### A session from its options -/

/-- What succeeds in a row succeeds one after the other. -/
theorem exists_of_bind_eq_ok {ε α β : Type} {x : Except ε α} {f : α → Except ε β} {b : β}
    (h : (x >>= f) = .ok b) : ∃ a, x = .ok a ∧ f a = .ok b := by
  cases x with
  | error e => cases h
  | ok a => exact ⟨a, rfl, h⟩

namespace Plan

/-- The largest number of instructions that are executed, if there is one. -/
def count? : Plan → Option Int
  | .list _ => none
  | .run _ limit => limit.count?

/-- On a machine with a program nothing has happened yet. -/
theorem fresh_of_load {m : Machine} {program : List UInt8} {overlayStack transferAll : Bool} {tracing : Setting}
    (h : (load program overlayStack transferAll tracing).mapError SessionError.load = .ok m) :
    m.startingAt (some programStart) = m ∧ m.output = [] := by
  unfold load at h
  split at h
  · cases h
  · cases h
    exact ⟨rfl, rfl⟩

/-- Nor on one that is about to run. -/
theorem fresh_of_ofOptions {files : String → Except FileError (List UInt8)} {o : Options} {m : Machine} {l : Limit}
    (h : ofOptions files o = .ok (.run m l)) : m.startingAt (some programStart) = m ∧ m.output = [] := by
  obtain ⟨overlayStack, -, h⟩ := exists_of_bind_eq_ok h
  obtain ⟨transferAll, -, h⟩ := exists_of_bind_eq_ok h
  obtain ⟨filename, -, h⟩ := exists_of_bind_eq_ok h
  obtain ⟨program, -, h⟩ := exists_of_bind_eq_ok h
  obtain ⟨debug, -, h⟩ := exists_of_bind_eq_ok h
  obtain ⟨list, -, h⟩ := exists_of_bind_eq_ok h
  split at h
  case isTrue => cases h
  case isFalse =>
    obtain ⟨machine, hload, h⟩ := exists_of_bind_eq_ok h
    obtain ⟨cycles, -, h⟩ := exists_of_bind_eq_ok h
    cases h
    exact fresh_of_load hload

end Plan

/-- **Stretches make a session.** Without a limit, so many stretches are the session as it is found after
as many steps. With one they are the whole session, if there are enough of them to reach the limit. -/
theorem Stretch.session_opening {files : String → Except FileError (List UInt8)} {o : Options} {plan : Plan}
    (hplan : Plan.ofOptions files o = .ok plan) :
    (plan.count? = none → ∀ count,
      plan.opening.session count = Session.launch files (stretchLength * count) o) ∧
    ∀ n, plan.count? = some n → ∀ count fuel : Nat, 0 < count → n ≤ stretchLength * count →
      plan.opening.session count = Session.launch files fuel o := by
  have hlaunch (fuel : Nat) : launch files fuel o = ofPlan fuel plan := by rw [launch, hplan]
  simp only [hlaunch]
  cases plan with
  | list program =>
    refine ⟨fun _ count => Stretch.session_exited .., fun n hn => ?_⟩
    cases hn
  | run m l =>
    obtain ⟨hstart, hempty⟩ := Plan.fresh_of_ofOptions hplan
    have hrun (limit : Option Int) (fuel : Nat) :
        run (some programStart) limit fuel m = run none limit fuel m := by
      rw [run_apply, run_apply, hstart]
      rfl
    simp only [ofPlan_run, hrun, Plan.opening, Plan.count?]
    constructor
    · intro hnone count
      rw [hnone]
      refine Stretch.session_ongoing hempty fun n hn => ?_
      cases hn
    · intro n hn count fuel hpos henough
      have hfuel : run none (some n) fuel m = run none (some n) (stretchLength * count) m := rfl
      rw [hn, hfuel]
      refine Stretch.session_ongoing hempty fun n' hn' => ?_
      cases hn'
      exact ⟨hpos, henough⟩

end Chip8

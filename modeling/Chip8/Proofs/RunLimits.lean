import Chip8.Proofs.Running

/-!
# The limit of a run

A run with a limit is the beginning of a longer one. If it reaches its limit, a second run goes on
where it has stopped, and the two together are one run with the sum of their limits. If a step
faults before that, the limit did not matter: every run that comes to this step ends there and
in the same way, also one without a limit, and one with a lower limit knows nothing of it.

A run without a limit is followed for some number of steps, its fuel. It never finishes. Either
it goes on for ever, or it ends with the first step that faults, whatever the fuel is.

* `steps_add`, `run_add_of_le` and `run_add`: two runs in a row.
* `halts_of_run_error` and `run_eq_of_halts`: the step at which a run ends, and all the
  other runs that end there.
* `run_composes_and_truncates`: all of this together.
-/

namespace Chip8.Machine

variable {m s : Machine} {e : Fault} {start limit : Option Int} {fuel k : Nat}

/-- How a run ended, if so many instructions were executed before it. -/
def RunEnd.countingFrom (count : Nat) : RunEnd → RunEnd
  | .finished n => .finished (count + n)
  | .unfinished => .unfinished

/-! ### Two runs in a row -/

theorem steps_add (a b : Nat) (m : Machine) :
    steps (a + b) m = (do steps a; steps b : Exec Machine Unit) m := by
  induction a generalizing m with
  | zero => rw [Nat.zero_add, steps, Exec.bind_eq_ok (Exec.pure_apply () m)]
  | succ a ih =>
    rw [Nat.succ_add, steps, steps, Exec.bind_apply, Exec.bind_apply, Exec.bind_apply]
    cases step m with
    | error e m₁ => rfl
    | ok u m₁ => exact (ih m₁).trans (Exec.bind_apply ..)

/-- Steps at the beginning of a run may be taken on their own, if its limit allows them. The rest of
the run goes on from there. -/
theorem run_add_of_le {a : Nat} (hlimit : ∀ n ∈ limit, (a : Int) ≤ n)
    (h : steps a (m.startingAt start) = .ok () s) :
    run start limit (a + fuel) m = (RunEnd.countingFrom a <$> run none (limit.map (· - (a : Int))) fuel) s := by
  have hlength : runLength limit (a + fuel) = a + runLength (limit.map (· - (a : Int))) fuel := by
    cases limit with
    | none => rfl
    | some n =>
      have hn := hlimit n rfl
      show n.toNat = a + (n - a).toNat
      omega
  have hend : RunEnd.ofLimit limit = (RunEnd.ofLimit (limit.map (· - (a : Int)))).countingFrom a := by
    cases limit with
    | none => rfl
    | some n => exact congrArg RunEnd.finished hlength
  have hsteps : steps (runLength limit (a + fuel)) (m.startingAt start) =
      steps (runLength (limit.map (· - (a : Int))) fuel) s := by
    rw [hlength, steps_add, Exec.bind_eq_ok h]
  rw [Exec.map_apply]
  cases hrest : steps (runLength (limit.map (· - (a : Int))) fuel) s with
  | ok u s' =>
    have hsecond : run none (limit.map (· - (a : Int))) fuel s = _ := run_of_ok hrest
    rw [run_of_ok (hsteps.trans hrest), hsecond, hend]
  | error e s' =>
    have hsecond : run none (limit.map (· - (a : Int))) fuel s = _ := run_of_error hrest
    rw [run_of_error (hsteps.trans hrest), hsecond]
    cases reportCrash e.message s' <;> rfl

/-- A run that goes on where another one has reached its limit. -/
theorem run_add {a : Nat} (b : Nat) (h : steps a (m.startingAt start) = .ok () s) :
    run start (some ((a + b : Nat) : Int)) fuel m =
      (RunEnd.countingFrom a <$> run none (some (b : Int)) fuel) s := by
  have hrest : ((a + b : Nat) : Int) - a = b := by omega
  have hlimit : ∀ n ∈ some ((a + b : Nat) : Int), (a : Int) ≤ n := by
    intro n hn
    cases hn
    omega
  rw [← hrest]
  exact run_add_of_le hlimit h

/-! ### How a run ends -/

/-- A run that no fault stops has taken all its steps. -/
theorem completes_of_run_ok {r : RunEnd} (h : run start limit fuel m = .ok r s) :
    r = .ofLimit limit ∧ Completes (runLength limit fuel) (m.startingAt start) ∧
      s = (m.startingAt start).afterSteps (runLength limit fuel) := by
  cases hsteps : steps (runLength limit fuel) (m.startingAt start) with
  | ok u s' =>
    rw [run_of_ok hsteps] at h
    cases h
    exact ⟨rfl, steps_eq_ok_iff.mp hsteps⟩
  | error e s' =>
    rw [run_of_error hsteps] at h
    cases hreport : reportCrash e.message s' <;> rw [hreport] at h <;> cases h

/-- A run that a fault stops has come to a step that faults. -/
theorem halts_of_run_error (h : run start limit fuel m = .error e s) :
    ∃ k < runLength limit fuel, Completes k (m.startingAt start) ∧
      ∃ e₀, step.answer ((m.startingAt start).afterSteps k) = .error e₀ := by
  rcases completes_or_halts (runLength limit fuel) (m.startingAt start) with hall | hhalts
  · rw [run_of_ok (steps_eq_ok_iff.mpr ⟨hall, rfl⟩)] at h
    cases h
  · exact hhalts

/-- Runs that come to the same step end alike. -/
theorem run_eq_of_halts {limit' : Option Int} {fuel' : Nat} {e₀ : Fault}
    (hbefore : Completes k (m.startingAt start))
    (hfault : step.answer ((m.startingAt start).afterSteps k) = .error e₀)
    (hk : k < runLength limit fuel) (hk' : k < runLength limit' fuel') :
    run start limit' fuel' m = run start limit fuel m := by
  have hstep := Exec.eq_error_of_answer hfault
  rw [run_of_error (steps_of_halts hk hbefore hstep), run_of_error (steps_of_halts hk' hbefore hstep)]

/-- A run that is stopped earlier finishes. -/
theorem run_of_completes {n : Nat} (h : Completes n (m.startingAt start)) :
    run start (some (n : Int)) fuel m = .ok (.finished n) ((m.startingAt start).afterSteps n) :=
  run_of_ok (steps_eq_ok_iff.mpr ⟨h, rfl⟩)

/-- A run without a limit ends with a fault or not at all. -/
theorem run_unlimited (m : Machine) (start : Option Int) :
    (∀ fuel, ∃ s, run start none fuel m = .ok .unfinished s) ∨
      ∃ k e s, ∀ fuel, k < fuel → run start none fuel m = .error e s := by
  by_cases hfault : ∃ fuel e s, run start none fuel m = .error e s
  · obtain ⟨fuel, e, s, hrun⟩ := hfault
    obtain ⟨k, hk, hbefore, e₀, hhalts⟩ := halts_of_run_error hrun
    refine .inr ⟨k, e, s, fun fuel' hk' => ?_⟩
    rw [← hrun]
    exact run_eq_of_halts hbefore hhalts hk hk'
  · refine .inl fun fuel => ?_
    cases hrun : run start none fuel m with
    | ok r s =>
      obtain ⟨rfl, -⟩ := completes_of_run_ok hrun
      exact ⟨s, rfl⟩
    | error e s => exact absurd ⟨fuel, e, s, hrun⟩ hfault

/-- **Runs compose, and a limit only truncates.** If a run reaches its limit, what a second run does
from there is what one run with both limits does, and it counts on. If a run is stopped by a
fault of the step after the first `k`, so is every run that comes to this step, with the same
fault and the same machine, and every run with a limit up to `k` finishes before it. A run without
a limit ends in no other way. A limit that is not positive executes nothing, and to give a
start is to assign PC first. -/
theorem run_composes_and_truncates (m : Machine) (start : Option Int) (fuel : Nat) :
    let begun := m.startingAt start
    (∀ (a b : Nat) r s, run start (some (a : Int)) fuel m = .ok r s →
      r = .finished a ∧
      run start (some ((a + b : Nat) : Int)) fuel m =
        (RunEnd.countingFrom a <$> run none (some (b : Int)) fuel) s) ∧
    (∀ limit e s, run start limit fuel m = .error e s →
      ∃ k < runLength limit fuel, (∃ e₀, step.answer (begun.afterSteps k) = .error e₀) ∧
        (∀ n : Int, k < n → run start (some n) fuel m = .error e s) ∧
        (∀ fuel', k < fuel' → run start none fuel' m = .error e s) ∧
        ∀ j ≤ k, run start (some (j : Int)) fuel m = .ok (.finished j) (begun.afterSteps j)) ∧
    ((∀ fuel', ∃ s, run start none fuel' m = .ok .unfinished s) ∨
      ∃ k e s, ∀ fuel', k < fuel' → run start none fuel' m = .error e s) ∧
    (∀ n : Int, n ≤ 0 → run start (some n) fuel m = .ok (.finished 0) begun) ∧
    ∀ a limit, run (some a) limit fuel m =
      (do onBoard (Board.move (·.setPC a)); run none limit fuel : Exec Machine RunEnd) m := by
  intro begun
  refine ⟨fun a b r s hrun => ?_, fun limit e s hrun => ?_, run_unlimited m start, fun n hn => ?_,
    fun a limit => ?_⟩
  · obtain ⟨rfl, hcompletes, rfl⟩ := completes_of_run_ok hrun
    exact ⟨rfl, run_add b (steps_eq_ok_iff.mpr ⟨hcompletes, rfl⟩)⟩
  · obtain ⟨k, hk, hbefore, e₀, hhalts⟩ := halts_of_run_error hrun
    refine ⟨k, hk, ⟨e₀, hhalts⟩, fun n hn => ?_, fun fuel' hk' => ?_, fun j hj => ?_⟩
    · rw [← hrun]
      exact run_eq_of_halts hbefore hhalts hk (show k < n.toNat by omega)
    · rw [← hrun]
      exact run_eq_of_halts hbefore hhalts hk hk'
    · exact run_of_completes (hbefore.mono hj)
  · have hnone : n.toNat = 0 := Int.toNat_of_nonpos hn
    have hsteps : steps (runLength (some n) fuel) begun = .ok () begun := by
      show steps n.toNat begun = _
      rw [hnone]
      rfl
    rw [run_of_ok hsteps]
    show EStateM.Result.ok (RunEnd.finished n.toNat) begun = _
    rw [hnone]
  · cases limit <;> rfl

end Chip8.Machine

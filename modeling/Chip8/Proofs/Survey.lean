import Chip8.Machine.Survey
import Chip8.Proofs.Runs
import Chip8.Proofs.Stepping

/-!
# What a survey finds

A survey looks for the opcodes that are executed, and those are the instructions: the machine that it tries
them on fails at none. So an opcode is in one of the runs of a survey exactly if it was asked for and is an
instruction. How the runs lie is said by `Run.apart_ofList`.

* `not_fails_ready`: the machine of a survey is ready for every instruction.
* `executes_iff`: which opcodes are executed.
* `mem_survey_iff`: which opcodes are in a survey.
-/

namespace Chip8.Machine

open Instruction

variable {first last w : Int}

/-- The machine that each opcode is tried on. -/
def ready : Machine := prepare.after standard

theorem prepare_standard : prepare standard = .ok () ready := rfl

theorem stack_ready : ready.board.stack = .dedicated 16 [0x234] := rfl

theorem index_ready : ready.board.index = 0x300 := rfl

theorem top_ready : ready.board.memory.top = 4095 := rfl

/-- There is an address to return to, room for one more, and memory for sixteen bytes at I. -/
theorem not_fails_ready (i : Instruction) : ¬Fails true ready.board i := by
  cases i with
  | ret =>
    rw [Fails, stack_ready]
    exact List.cons_ne_nil _ _
  | call a =>
    rw [Fails, stack_ready]
    simp
  | draw x y n =>
    have hn := n.isLt
    rw [Fails, index_ready, top_ready]
    omega
  | decimal x =>
    rw [Fails, index_ready, top_ready]
    omega
  | store x =>
    rw [Fails, index_ready, top_ready]
    simp [lastRegister]
  | load x =>
    rw [Fails, index_ready, top_ready]
    simp [lastRegister]
  | _ => exact id

/-- The same machine, about to execute an opcode. -/
def tried (w : Int) : Machine := { ready with processor := { ready.processor with opcode := w } }

theorem answer_tried (w : Int) :
    (do prepare; executeOpcode w : Exec Machine Unit).answer standard = decodeExecute.answer (tried w) := by
  rw [Exec.answer, Exec.bind_eq_ok prepare_standard]
  rfl

/-- **The opcodes that are executed are the instructions.** -/
theorem executes_iff : executes w = true ↔ Emulated w := by
  rw [executes, answer_tried, Exec.answer]
  by_cases hw : Emulated w
  · obtain ⟨i, hi⟩ := hw.denotes
    cases hends : decodeExecute (tried w) with
    | ok _ m' => simp [hw]
    | error e m' =>
      have hfails := ((decodeExecute_fails_iff (tried w)).1 i hi).1.mp ⟨e, m', hends⟩
      exact absurd hfails (not_fails_ready i)
  · rw [decodeExecute_of_not_emulated (m := tried w) hw]
    simp [hw]

/-- **A survey finds the instructions among the opcodes that it is asked for**, and no others. -/
theorem mem_survey_iff :
    (∃ r ∈ survey first last, r.first ≤ w ∧ w ≤ r.last) ↔ first ≤ w ∧ w ≤ last ∧ Emulated w := by
  have hat : (∃ r ∈ survey first last, r.first ≤ w ∧ w ≤ r.last) ↔ ∃ r ∈ survey first last, r.At w () := by
    refine exists_congr fun r => and_congr_right fun _ => ?_
    rw [← Run.exists_at_iff]
    exact ⟨fun ⟨_, h⟩ => h, fun h => ⟨(), h⟩⟩
  rw [hat, survey, Run.at_ofList_iff]
  simp only [Run.At]
  constructor
  · rintro ⟨k, hitem, rfl⟩
    rw [List.getElem?_map, Option.map_eq_some_iff] at hitem
    obtain ⟨j, hj, hfound⟩ := hitem
    obtain ⟨hlt, hget⟩ := List.getElem?_eq_some_iff.mp hj
    rw [List.length_range] at hlt
    rw [List.getElem_range] at hget
    subst hget
    refine ⟨by omega, by omega, executes_iff.mp ?_⟩
    by_cases hexecutes : executes (first + k) = true
    · exact hexecutes
    · rw [if_neg hexecutes] at hfound
      cases hfound
  · rintro ⟨hfirst, hlast, hw⟩
    have hk : first + ((w - first).toNat : Int) = w := by omega
    refine ⟨(w - first).toNat, ?_, hk.symm⟩
    rw [List.getElem?_map, List.getElem?_range (by omega), Option.map_some, hk, if_pos (executes_iff.mpr hw)]

end Chip8.Machine

import Chip8.Launch.Session

/-!
# A session in stretches

A program may run for ever, so what it reports is not kept until its end. A run is taken in stretches of
`stretchLength` instructions. The reports of a stretch are written when it is over, and the next one
goes on from there with an empty journal.

A `Stretch` holds what is ready to be written, and says what comes then: the rest of a run or the exit
status. `Stretch.session` puts together what so many stretches report.
-/

namespace Chip8

/-- How many instructions are executed before their reports are written. -/
def stretchLength : Nat := 4096

/-- The machine once its reports were taken away. -/
def Machine.emptied (m : Machine) : Machine := { m with journal := Journal.ofSetting m.journal.setting }

/-- A run that goes on. -/
structure Ongoing where
  /-- The machine, with nothing reported. -/
  machine : Machine
  /-- How many instructions it may still execute, if that is limited. -/
  limit : Option Int

/-- A part of a session. -/
structure Stretch where
  /-- The reports of this part, in order. -/
  entries : List Entry
  /-- The rest of a run, or the exit status. -/
  next : Ongoing ⊕ Nat

/-- Executes the next stretch of a run. -/
def Ongoing.stretch (r : Ongoing) : Stretch :=
  let length : Int := (r.limit.map (min (stretchLength : Int))).getD stretchLength
  match Machine.run none (some length) 0 r.machine with
  | .error _ m => ⟨m.journal.entries.toList, .inr 1⟩
  | .ok _ m =>
    let rest := r.limit.map (· - length)
    ⟨m.journal.entries.toList, if rest.any (· ≤ 0) then .inr 0 else .inl ⟨m.emptied, rest⟩⟩

/-- The beginning of a session: all of a listing, or a run before its first stretch. -/
def Plan.opening : Plan → Stretch
  | .list program => ⟨Entry.listing programStart program, .inr 0⟩
  | .run machine limit => ⟨[], .inl ⟨machine, limit.count?⟩⟩

/-- The session that begins in this way and is followed for `count` stretches more. -/
def Stretch.session (count : Nat) (s : Stretch) : Session :=
  match s.next, count with
  | .inr status, _ => ⟨s.entries, .exited status⟩
  | .inl _, 0 => ⟨s.entries, .unfinished⟩
  | .inl r, count + 1 =>
    let rest := r.stretch.session count
    ⟨s.entries ++ rest.entries, rest.ending⟩

namespace Stretch

variable (es : List Entry) (r : Ongoing) (status count : Nat)

@[simp] theorem session_exited : (Stretch.mk es (.inr status)).session count = ⟨es, .exited status⟩ := by
  cases count <;> rfl

@[simp] theorem session_zero : (Stretch.mk es (.inl r)).session 0 = ⟨es, .unfinished⟩ := rfl

theorem session_succ :
    (Stretch.mk es (.inl r)).session (count + 1) =
      ⟨es ++ (r.stretch.session count).entries, (r.stretch.session count).ending⟩ := rfl

end Stretch

end Chip8

/-!
# Runs of consecutive places

What changed in a bank and which opcodes are instructions are both reported as runs:
stretches of places that follow each other without a gap, each as long as it can be.
-/

namespace Chip8

variable {α : Type}

/-- A stretch of consecutive places: the first of them, and what stands at each. -/
structure Run (α : Type) where
  /-- The first place. -/
  first : Int
  /-- What stands at the places from the first one on. -/
  items : List α

/-- The last place of a run that is not empty. -/
def Run.last (r : Run α) : Int := r.first + r.items.length - 1

/-- Puts one place in front of runs that begin after it: it joins the first of them if
it stands right before it, and is a run of its own otherwise. -/
def Run.attach (place : Int) (item : α) : List (Run α) → List (Run α)
  | r :: rest =>
    if r.first = place + 1 then ⟨place, item :: r.items⟩ :: rest
    else ⟨place, [item]⟩ :: r :: rest
  | [] => [⟨place, [item]⟩]

/-- The runs of the places from `first` on at which the list holds something. -/
def Run.ofList (first : Int) (items : List (Option α)) : List (Run α) :=
  items.zipIdx.foldr (fun (item, k) runs =>
    match item with
    | none => runs
    | some item => Run.attach (first + k) item runs) []

end Chip8

import Chip8.Board
import Chip8.Memory.Lemmas

/-!
# What pushing and popping do

Each of the two is described once for a dedicated stack and once for an overlay, with
the board that it leaves behind in every case.

* A dedicated stack changes SP and its own list, or faults and changes nothing.
* An overlay changes SP and two bytes of memory when it pushes, and only SP when it
  pops. A push that faults has moved SP.
-/

namespace Chip8.Board

variable {b : Board} {address : Int}

/-- SP one level up. -/
def raised (b : Board) : Registers := b.registers.setSP (b.registers.sp.toNat + 2)

/-- SP one level down. -/
def lowered (b : Board) : Registers := b.registers.setSP (b.registers.sp.toNat - 2)

theorem onMemory_apply {α : Type} (x : Exec Memory α) (b : Board) :
    onMemory x b = match x b.memory with
      | .ok a m => .ok a { b with memory := m }
      | .error e m => .error e { b with memory := m } := by
  rw [onMemory, Exec.within_apply]
  cases x b.memory <;> rfl

/-! ### A dedicated stack -/

theorem push_dedicated {capacity : Int} {addresses : List Int}
    (h : b.stack = .dedicated capacity addresses) :
    push address b =
      if capacity ≤ addresses.length then .error .stackOverflow b
      else .ok () { b with registers := b.raised, stack := .dedicated capacity (address :: addresses) } := by
  by_cases hc : capacity ≤ addresses.length
  · simp [push, Exec.bind_apply, h, hc]
  · simp [push, Exec.bind_apply, h, hc, move, replaceStack, raised]

theorem pop_dedicated_nil {capacity : Int} (h : b.stack = .dedicated capacity []) :
    pop b = .error .stackUnderflow b := by
  simp [pop, Exec.bind_apply, h]

theorem pop_dedicated_cons {capacity : Int} {addresses : List Int}
    (h : b.stack = .dedicated capacity (address :: addresses)) :
    pop b =
      .ok address { b with registers := b.lowered, stack := .dedicated capacity addresses } := by
  simp [pop, Exec.bind_apply, h, move, replaceStack, lowered]

/-! ### An overlay -/

theorem push_overlay (h : b.stack = .overlay) :
    push address b =
      match Memory.writeWord b.raised.sp.toNat address b.memory with
      | .ok _ m => .ok () { b with registers := b.raised, memory := m }
      | .error e m => .error e { b with registers := b.raised, memory := m } := by
  simp only [push, Exec.bind_apply, Exec.get_apply, h, move, Exec.modify_apply, onMemory_apply, raised]
  cases Memory.writeWord (b.registers.setSP (b.registers.sp.toNat + 2)).sp.toNat address b.memory <;>
    rfl

theorem pop_overlay (h : b.stack = .overlay) :
    pop b =
      match Memory.readWord b.registers.sp.toNat b.memory with
      | .ok w m => .ok w.toNat { b with registers := b.lowered, memory := m }
      | .error e m => .error e { b with memory := m } := by
  simp only [pop, Exec.bind_apply, Exec.get_apply, h, move, Exec.modify_apply, onMemory_apply]
  cases Memory.readWord b.registers.sp.toNat b.memory <;> rfl

end Chip8.Board

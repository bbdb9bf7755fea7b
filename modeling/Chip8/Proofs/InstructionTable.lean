import Chip8.Proofs.Transfer

/-!
# The instruction table

What every instruction does, as a table that can be read without the definition of
`execute`. `Performs` has a row for each instruction and, where a return address is
involved, one for each kind of call stack. It gives the board that is left; what a row
does not name stays as it was. `Refuses` has a row for each way in which an instruction
can fail, with the fault and with what was changed before it.

* `execute_eq_ok_iff` and `execute_eq_error_iff`: the two tables say exactly what
  `execute` does.
* `performs_or_refuses`: every instruction has a row on every board.

So whatever holds of all rows holds of all instructions, and a proof about instructions
is by cases on a row.
-/

namespace Chip8

/-! ### A board in numbers -/

namespace Board

variable (b : Board)

/-- PC as a number. -/
def pc : Int := b.registers.pc.toNat

/-- I as a number. -/
def index : Int := b.registers.i.toNat

/-- SP as a number. -/
def sp : Int := b.registers.sp.toNat

/-- SP one level up, as a number. -/
def nextSP : Int := (b.sp + 2) % 256

/-- The value of a register. -/
def reg (x : Nibble) : UInt8 := b.registers.get x

theorem pc_nonneg : 0 ≤ b.pc := Int.natCast_nonneg _

theorem index_nonneg : 0 ≤ b.index := Int.natCast_nonneg _

theorem sp_nonneg : 0 ≤ b.sp := Int.natCast_nonneg _

theorem nextSP_nonneg : 0 ≤ b.nextSP := Int.emod_nonneg _ (by decide)

end Board

/-! ### The tables -/

/-- The instruction table. -/
inductive Performs (all : Bool) (b : Board) : Instruction → Board → Prop
  /-- The screen is asked once to clear itself. -/
  | clear : Performs all b .clear
      { b with
        screen := ⟨b.screen.answers, b.screen.requests.push .clear⟩
        registers := b.registers.setPC (b.pc + 2) }
  /-- The most recent address is taken from the list. -/
  | retDedicated {capacity a : Int} {rest : List Int} (h : b.stack = .dedicated capacity (a :: rest)) :
      Performs all b .ret
        { b with
          stack := .dedicated capacity rest
          registers := (b.registers.setSP (b.sp - 2)).setPC a }
  /-- The word at SP is the address; memory keeps it. -/
  | retOverlay (h : b.stack = .overlay) (hfit : b.sp + 1 ≤ b.memory.top) :
      Performs all b .ret
        { b with registers := (b.registers.setSP (b.sp - 2)).setPC (b.memory.wordAt b.sp) }
  | jump {a : Fin 4096} : Performs all b (.jump a) { b with registers := b.registers.setPC a.val }
  /-- The address of the next instruction is added to the list as it is. -/
  | callDedicated {a : Fin 4096} {capacity : Int} {saved : List Int}
      (h : b.stack = .dedicated capacity saved) (hroom : saved.length < capacity) :
      Performs all b (.call a)
        { b with
          stack := .dedicated capacity ((b.pc + 2) :: saved)
          registers := (b.registers.setSP (b.sp + 2)).setPC a.val }
  /-- The low sixteen bits of that address are written at the new SP, the high byte first. -/
  | callOverlay {a : Fin 4096} (h : b.stack = .overlay) (hfit : b.nextSP + 1 ≤ b.memory.top) :
      Performs all b (.call a)
        { b with
          memory := b.memory.setBlock b.nextSP [Word.high (b.pc + 2), Word.low (b.pc + 2)]
          registers := (b.registers.setSP (b.sp + 2)).setPC a.val }
  | skipEq {x : Nibble} {k : UInt8} : Performs all b (.skipEq x k)
      { b with registers := b.registers.setPC (if b.reg x = k then b.pc + 4 else b.pc + 2) }
  | skipNe {x : Nibble} {k : UInt8} : Performs all b (.skipNe x k)
      { b with registers := b.registers.setPC (if b.reg x ≠ k then b.pc + 4 else b.pc + 2) }
  | skipSame {x y : Nibble} : Performs all b (.skipSame x y)
      { b with registers := b.registers.setPC (if b.reg x = b.reg y then b.pc + 4 else b.pc + 2) }
  | set {x : Nibble} {k : UInt8} : Performs all b (.set x k)
      { b with registers := (b.registers.set x k).setPC (b.pc + 2) }
  /-- The sum wraps, and no other register holds a carry. -/
  | add {x : Nibble} {k : UInt8} : Performs all b (.add x k)
      { b with registers := (b.registers.set x (Word.low ((b.reg x).toNat + k.toNat))).setPC (b.pc + 2) }
  | move {x y : Nibble} : Performs all b (.move x y)
      { b with registers := (b.registers.set x (b.reg y)).setPC (b.pc + 2) }
  | or {x y : Nibble} : Performs all b (.or x y)
      { b with registers := (b.registers.set x (b.reg x ||| b.reg y)).setPC (b.pc + 2) }
  | index {a : Fin 4096} : Performs all b (.index a)
      { b with registers := (b.registers.setI a.val).setPC (b.pc + 2) }
  /-- The screen is asked once for the sprite of `n` bytes at I, at the place that the two
  registers give before VF takes the answer. -/
  | draw {x y n : Nibble} (hat : b.index ≤ b.memory.top) (hfit : b.index + n.val - 1 ≤ b.memory.top) :
      Performs all b (.draw x y n)
        { b with
          screen := ⟨b.screen.answers.tail, b.screen.requests.push (.draw
            ((List.range n).map fun (k : Nat) => b.memory.byteAt (b.index + k)) (b.reg x) (b.reg y))⟩
          registers := (b.registers.set 0xF (if b.screen.collides then 1 else 0)).setPC (b.pc + 2) }
  /-- Three decimal digits are stored at I, the most significant first. -/
  | decimal {x : Nibble} (hfit : b.index + 2 ≤ b.memory.top) :
      Performs all b (.decimal x)
        { b with
          memory := b.memory.setBlock b.index [b.reg x / 100, b.reg x / 10 % 10, b.reg x % 10]
          registers := b.registers.setPC (b.pc + 2) }
  /-- The first registers are stored at I. -/
  | store {x : Nibble} (hfit : b.index + lastRegister all x ≤ b.memory.top) :
      Performs all b (.store x)
        { b with
          memory := b.memory.setBlock b.index (b.registers.v.toList.take (lastRegister all x + 1))
          registers := b.registers.setPC (b.pc + 2) }
  /-- The first registers are loaded from I. -/
  | load {x : Nibble} (hfit : b.index + lastRegister all x ≤ b.memory.top) :
      Performs all b (.load x)
        { b with
          registers := (b.registers.loaded b.memory b.index (lastRegister all x + 1)).setPC (b.pc + 2) }

/-- The table of failures. -/
inductive Refuses (all : Bool) (b : Board) : Instruction → Fault → Board → Prop
  /-- There is no address to return to. -/
  | retDedicated {capacity : Int} (h : b.stack = .dedicated capacity []) :
      Refuses all b .ret .stackUnderflow b
  /-- The word at SP is not in the bank. -/
  | retOverlay (h : b.stack = .overlay) (hend : b.memory.top < b.sp + 1) :
      Refuses all b .ret (.outOfBounds (max b.sp (b.memory.top + 1)) b.memory.top) b
  /-- The list is full. -/
  | callDedicated {a : Fin 4096} {capacity : Int} {saved : List Int}
      (h : b.stack = .dedicated capacity saved) (hfull : capacity ≤ saved.length) :
      Refuses all b (.call a) .stackOverflow b
  /-- The word at the new SP is not in the bank; SP has moved there. -/
  | callOverlay {a : Fin 4096} (h : b.stack = .overlay) (hend : b.memory.top < b.nextSP + 1) :
      Refuses all b (.call a) (.outOfBounds (b.nextSP + 1) b.memory.top)
        { b with registers := b.registers.setSP (b.sp + 2) }
  /-- There is no byte at I, which is checked for a sprite without rows too. -/
  | drawStart {x y n : Nibble} (hend : b.memory.top < b.index) :
      Refuses all b (.draw x y n) (.outOfBounds b.index b.memory.top) b
  /-- The sprite reaches past the end of the bank. -/
  | drawEnd {x y n : Nibble} (hat : b.index ≤ b.memory.top) (hpos : 0 < n.val)
      (hend : b.memory.top < b.index + n.val - 1) :
      Refuses all b (.draw x y n) (.outOfBounds (b.index + n.val - 1) b.memory.top) b
  /-- The digits that are still in the bank were stored. -/
  | decimal {x : Nibble} (hend : b.memory.top < b.index + 2) :
      Refuses all b (.decimal x) (.outOfBounds (max b.index (b.memory.top + 1)) b.memory.top)
        { b with
          memory := b.memory.setBlock b.index
            ([b.reg x / 100, b.reg x / 10 % 10, b.reg x % 10].take (b.memory.top + 1 - b.index).toNat) }
  /-- The registers for which there are bytes in the bank were stored. -/
  | store {x : Nibble} (hend : b.memory.top < b.index + lastRegister all x) :
      Refuses all b (.store x) (.outOfBounds (max b.index (b.memory.top + 1)) b.memory.top)
        { b with
          memory := b.memory.setBlock b.index
            (b.registers.v.toList.take (b.memory.top + 1 - b.index).toNat) }
  /-- The registers for which there are bytes in the bank were loaded. -/
  | load {x : Nibble} (hend : b.memory.top < b.index + lastRegister all x) :
      Refuses all b (.load x) (.outOfBounds (max b.index (b.memory.top + 1)) b.memory.top)
        { b with
          registers := b.registers.loaded b.memory b.index (b.memory.top + 1 - b.index).toNat }

/-- Where an instruction fails, whatever it does before. -/
def Fails (all : Bool) (b : Board) : Instruction → Prop
  | .ret =>
    match b.stack with
    | .dedicated _ saved => saved = []
    | .overlay => b.memory.top < b.sp + 1
  | .call _ =>
    match b.stack with
    | .dedicated capacity saved => capacity ≤ saved.length
    | .overlay => b.memory.top < b.nextSP + 1
  | .draw _ _ n => b.memory.top < b.index ∨ 0 < n.val ∧ b.memory.top < b.index + n.val - 1
  | .decimal _ => b.memory.top < b.index + 2
  | .store x | .load x => b.memory.top < b.index + lastRegister all x
  | _ => False

/-! ### Instructions in terms of their transfers -/

section

variable (all : Bool) (b : Board)

theorem Board.move_apply (f : Registers → Registers) :
    Board.move f b = .ok () { b with registers := f b.registers } := rfl

theorem Board.ask_apply (f : Screen → Screen) :
    Board.ask f b = .ok () { b with screen := f b.screen } := rfl

theorem Board.sp_raised : (b.raised.sp.toNat : Int) = b.nextSP := by
  simp only [Board.raised, Registers.sp_setSP, Word.toNat_low]
  rfl

theorem execute_ret :
    execute all .ret b = match Board.pop b with
      | .ok a b' => .ok () { b' with registers := b'.registers.setPC a }
      | .error e b' => .error e b' := by
  simp only [execute, Exec.bind_apply]
  cases Board.pop b <;> rfl

theorem execute_call (a : Fin 4096) :
    execute all (.call a) b = match Board.push (b.pc + 2) b with
      | .ok _ b' => .ok () { b' with registers := b'.registers.setPC a.val }
      | .error e b' => .error e b' := by
  simp only [execute, Exec.bind_apply, Exec.get_apply, Board.pc]
  cases Board.push (b.registers.pc.toNat + 2) b <;> rfl

theorem execute_draw (x y n : Nibble) :
    execute all (.draw x y n) b = match Memory.readBlock b.index n.val b.memory with
      | .ok sprite m => .ok ()
        { b with
          memory := m
          screen := b.screen.draw sprite (b.reg x) (b.reg y)
          registers := (b.registers.set 0xF (if b.screen.collides then 1 else 0)).setPC (b.pc + 2) }
      | .error e m => .error e { b with memory := m } := by
  simp only [execute, Exec.bind_apply, Exec.get_apply, Board.onMemory_apply, Board.index]
  cases Memory.readBlock b.registers.i.toNat n.val b.memory with
  | error e m => rfl
  | ok sprite m =>
    simp only [Board.ask_apply, Board.move_apply, Registers.advance_eq]
    rfl

/-- Storing digits and storing registers are one transfer of different bytes. -/
theorem writeEach_then_advance (bs : List Int) :
    (do Board.onMemory (Memory.writeEach b.index bs); Board.move Registers.advance : Exec Board Unit) b =
      match Memory.writeEach b.index bs b.memory with
      | .ok _ m => .ok () { b with memory := m, registers := b.registers.setPC (b.pc + 2) }
      | .error e m => .error e { b with memory := m } := by
  simp only [Exec.bind_apply, Board.onMemory_apply]
  cases Memory.writeEach b.index bs b.memory with
  | error e m => rfl
  | ok _ m =>
    simp only [Board.move_apply, Registers.advance_eq]
    rfl

theorem execute_decimal (x : Nibble) :
    execute all (.decimal x) b =
      match Memory.writeEach b.index (Digits.ofInt (b.reg x).toNat).toList b.memory with
      | .ok _ m => .ok () { b with memory := m, registers := b.registers.setPC (b.pc + 2) }
      | .error e m => .error e { b with memory := m } :=
  writeEach_then_advance b _

theorem execute_store (x : Nibble) :
    execute all (.store x) b =
      match Memory.writeEach b.index ((blockRegisters all x).map fun y => ((b.reg y).toNat : Int))
          b.memory with
      | .ok _ m => .ok () { b with memory := m, registers := b.registers.setPC (b.pc + 2) }
      | .error e m => .error e { b with memory := m } :=
  writeEach_then_advance b _

theorem execute_load (x : Nibble) :
    execute all (.load x) b =
      match Board.loadEach b.index ((List.finRange 16).take (lastRegister all x + 1)) b with
      | .ok _ b' => .ok () { b' with registers := b'.registers.advance }
      | .error e b' => .error e b' := by
  simp only [execute, Exec.bind_apply, Exec.get_apply, blockRegisters_eq, Board.index]
  cases Board.loadEach b.registers.i.toNat ((List.finRange 16).take (lastRegister all x + 1)) b <;> rfl

theorem map_low_registers (x : Nibble) :
    ((blockRegisters all x).map fun y => ((b.reg y).toNat : Int)).map Word.low =
      b.registers.v.toList.take (lastRegister all x + 1) := by
  rw [List.map_map, ← map_get_blockRegisters]
  exact List.map_congr_left fun y _ => Word.low_toNat (b.reg y)

end

/-! ### The tables say what is done -/

section

variable {all : Bool} {b b' : Board} {i : Instruction} {e : Fault}

theorem execute_of_performs (h : Performs all b i b') : execute all i b = .ok () b' := by
  have hindex := b.index_nonneg
  cases h with
  | clear =>
    simp [execute, Exec.bind_apply, Board.ask_apply, Board.move_apply, Registers.advance_eq,
      Screen.clear, Board.pc]
  | retDedicated h => rw [execute_ret, Board.pop_dedicated_cons h]; rfl
  | retOverlay h hfit =>
    have hread := Memory.readWord_of_le b.sp_nonneg hfit
    rw [execute_ret, Board.pop_overlay h]
    simp only [Board.sp] at hread ⊢
    rw [hread]
    simp only [Memory.toNat_join_byteAt]
    rfl
  | jump => rfl
  | callDedicated h hroom => rw [execute_call, Board.push_dedicated h, if_neg (by omega)]; rfl
  | callOverlay h hfit =>
    rw [execute_call, Board.push_overlay h, Board.sp_raised,
      Memory.writeWord_of_le _ b.nextSP_nonneg hfit]
    rfl
  | @skipEq x k =>
    by_cases hk : b.registers.get x = k <;>
      simp [execute, Board.move_apply, Registers.skipIf_eq, Board.pc, Board.reg, hk]
  | @skipNe x k =>
    by_cases hk : b.registers.get x = k <;>
      simp [execute, Board.move_apply, Registers.skipIf_eq, Board.pc, Board.reg, hk]
  | @skipSame x y =>
    by_cases hk : b.registers.get x = b.registers.get y <;>
      simp [execute, Board.move_apply, Registers.skipIf_eq, Board.pc, Board.reg, hk]
  | set => simp [execute, Board.move_apply, Registers.advance_eq, Board.pc]
  | @add x k =>
    have hsum : Word.low ((b.registers.get x).toNat + k.toNat) = b.registers.get x + k := by
      rw [← UInt8.toNat_inj, UInt8.toNat_add]
      have := Word.toNat_low ((b.registers.get x).toNat + k.toNat)
      omega
    simp [execute, Board.move_apply, Registers.advance_eq, Board.pc, Board.reg, hsum]
  | move => simp [execute, Board.move_apply, Registers.advance_eq, Board.pc, Board.reg]
  | or => simp [execute, Board.move_apply, Registers.advance_eq, Board.pc, Board.reg]
  | index => simp [execute, Board.move_apply, Registers.advance_eq, Board.pc]
  | @draw x y n hat hfit =>
    have hread : Memory.readBlock b.index n.val b.memory =
        .ok ((List.range n).map fun (k : Nat) => b.memory.byteAt (b.index + k)) b.memory := by
      have hstart : b.index ∈ b.memory := (Memory.mem_of_nonneg hindex).mpr hat
      have hlast : ¬(0 < (n.val : Int) ∧ b.index + n.val - 1 ∉ b.memory) := by
        rintro ⟨hpos, hout⟩
        exact hout ((Memory.mem_of_nonneg (by omega)).mpr hfit)
      have hsize : b.index + n.val ≤ b.memory.cells.size := by
        rw [b.memory.size_cells]
        simp only [Memory.top_def] at hfit
        omega
      rw [Memory.readBlock_eq, if_neg (not_not_intro hstart), if_neg hlast,
        Memory.slice_eq hindex _ hsize]
    rw [execute_draw, hread]
    rfl
  | @decimal x hfit =>
    have hlength : (Digits.ofInt (b.reg x).toNat).toList.length = 3 := rfl
    rw [execute_decimal, Memory.writeEach_of_le _ hindex (by omega), map_low_digits]
  | @store x hfit =>
    have hlength := length_blockRegisters all x
    rw [execute_store, Memory.writeEach_of_le _ hindex (by rw [List.length_map]; omega),
      map_low_registers]
  | @load x hfit =>
    have hlast := lastRegister_lt all x
    rw [execute_load, Board.loadEach_of_le (by omega) hindex (by omega)]
    simp only [Registers.advance_eq, Registers.pc_loaded]
    rfl

theorem execute_of_refuses (h : Refuses all b i e b') : execute all i b = .error e b' := by
  have hindex := b.index_nonneg
  cases h with
  | retDedicated h => rw [execute_ret, Board.pop_dedicated_nil h]
  | retOverlay h hend =>
    have hread := Memory.readWord_of_gt b.sp_nonneg hend
    rw [execute_ret, Board.pop_overlay h]
    simp only [Board.sp] at hread ⊢
    rw [hread]
  | callDedicated h hfull => rw [execute_call, Board.push_dedicated h, if_pos hfull]
  | callOverlay h hend =>
    rw [execute_call, Board.push_overlay h, Board.sp_raised,
      Memory.writeWord_of_gt _ b.nextSP_nonneg hend]
    rfl
  | drawStart hend =>
    have hstart : b.index ∉ b.memory := mt (Memory.mem_of_nonneg hindex).mp (by omega)
    rw [execute_draw, Memory.readBlock_eq, if_pos hstart]
  | @drawEnd x y n hat hpos hend =>
    have hstart : b.index ∈ b.memory := (Memory.mem_of_nonneg hindex).mpr hat
    have hlast : 0 < (n.val : Int) ∧ b.index + n.val - 1 ∉ b.memory :=
      ⟨by omega, mt (Memory.mem_of_nonneg (by omega)).mp (by omega)⟩
    rw [execute_draw, Memory.readBlock_eq, if_neg (not_not_intro hstart), if_pos hlast]
  | @decimal x hend =>
    have hlength : (Digits.ofInt (b.reg x).toNat).toList.length = 3 := rfl
    have hne : (Digits.ofInt (b.reg x).toNat).toList ≠ [] := List.cons_ne_nil _ _
    rw [execute_decimal, Memory.writeEach_of_gt _ hindex hne (by omega), map_low_digits]
  | @store x hend =>
    have hlength := length_blockRegisters all x
    have hne : (blockRegisters all x).map (fun y => ((b.reg y).toNat : Int)) ≠ [] := by
      rw [← List.length_pos_iff, List.length_map]
      omega
    have hfit : (b.memory.top + 1 - b.index).toNat ≤ lastRegister all x + 1 := by omega
    rw [execute_store, Memory.writeEach_of_gt _ hindex hne (by rw [List.length_map]; omega),
      map_low_registers, List.take_take, Nat.min_eq_left hfit]
  | @load x hend =>
    have hlast := lastRegister_lt all x
    rw [execute_load, Board.loadEach_of_gt (by omega) (by omega) hindex (by omega)]

/-- Whatever the board, an instruction has a row in one of the two tables. -/
theorem performs_or_refuses (all : Bool) (b : Board) (i : Instruction) :
    (∃ b', Performs all b i b') ∨ ∃ e b', Refuses all b i e b' := by
  cases i with
  | clear => exact .inl ⟨_, .clear⟩
  | ret =>
    cases h : b.stack with
    | dedicated capacity saved =>
      cases saved with
      | nil => exact .inr ⟨_, _, .retDedicated h⟩
      | cons a rest => exact .inl ⟨_, .retDedicated h⟩
    | overlay =>
      rcases Int.lt_or_le b.memory.top (b.sp + 1) with hend | hfit
      · exact .inr ⟨_, _, .retOverlay h hend⟩
      · exact .inl ⟨_, .retOverlay h hfit⟩
  | jump a => exact .inl ⟨_, .jump⟩
  | call a =>
    cases h : b.stack with
    | dedicated capacity saved =>
      rcases Int.lt_or_le saved.length capacity with hroom | hfull
      · exact .inl ⟨_, .callDedicated h hroom⟩
      · exact .inr ⟨_, _, .callDedicated h hfull⟩
    | overlay =>
      rcases Int.lt_or_le b.memory.top (b.nextSP + 1) with hend | hfit
      · exact .inr ⟨_, _, .callOverlay h hend⟩
      · exact .inl ⟨_, .callOverlay h hfit⟩
  | skipEq x k => exact .inl ⟨_, .skipEq⟩
  | skipNe x k => exact .inl ⟨_, .skipNe⟩
  | skipSame x y => exact .inl ⟨_, .skipSame⟩
  | set x k => exact .inl ⟨_, .set⟩
  | add x k => exact .inl ⟨_, .add⟩
  | move x y => exact .inl ⟨_, .move⟩
  | or x y => exact .inl ⟨_, .or⟩
  | index a => exact .inl ⟨_, .index⟩
  | draw x y n =>
    rcases Int.lt_or_le b.memory.top b.index with hend | hat
    · exact .inr ⟨_, _, .drawStart hend⟩
    rcases Int.lt_or_le b.memory.top (b.index + n.val - 1) with hend | hfit
    · exact .inr ⟨_, _, .drawEnd hat (by omega) hend⟩
    · exact .inl ⟨_, .draw hat hfit⟩
  | decimal x =>
    rcases Int.lt_or_le b.memory.top (b.index + 2) with hend | hfit
    · exact .inr ⟨_, _, .decimal hend⟩
    · exact .inl ⟨_, .decimal hfit⟩
  | store x =>
    rcases Int.lt_or_le b.memory.top (b.index + lastRegister all x) with hend | hfit
    · exact .inr ⟨_, _, .store hend⟩
    · exact .inl ⟨_, .store hfit⟩
  | load x =>
    rcases Int.lt_or_le b.memory.top (b.index + lastRegister all x) with hend | hfit
    · exact .inr ⟨_, _, .load hend⟩
    · exact .inl ⟨_, .load hfit⟩

/-- **An instruction returns exactly as its row in the table says.** -/
theorem execute_eq_ok_iff : execute all i b = .ok () b' ↔ Performs all b i b' := by
  refine ⟨fun h => ?_, execute_of_performs⟩
  obtain ⟨c, hc⟩ | ⟨e, c, hc⟩ := performs_or_refuses all b i
  · rw [execute_of_performs hc] at h
    cases h
    exact hc
  · rw [execute_of_refuses hc] at h
    cases h

/-- **An instruction faults exactly as its row among the failures says.** -/
theorem execute_eq_error_iff : execute all i b = .error e b' ↔ Refuses all b i e b' := by
  refine ⟨fun h => ?_, execute_of_refuses⟩
  obtain ⟨c, hc⟩ | ⟨e', c, hc⟩ := performs_or_refuses all b i
  · rw [execute_of_performs hc] at h
    cases h
  · rw [execute_of_refuses hc] at h
    cases h
    exact hc

/-! ### What all failures have in common -/

theorem Refuses.exists_iff : (∃ e b', Refuses all b i e b') ↔ Fails all b i := by
  constructor
  · rintro ⟨e, b', h⟩
    cases h with
    | retDedicated h => simp [Fails, h]
    | retOverlay h hend => simpa [Fails, h] using hend
    | callDedicated h hfull => simpa [Fails, h] using hfull
    | callOverlay h hend => simpa [Fails, h] using hend
    | drawStart hend => exact .inl hend
    | drawEnd _ hpos hend => exact .inr ⟨hpos, hend⟩
    | decimal hend => exact hend
    | store hend => exact hend
    | load hend => exact hend
  · intro h
    obtain ⟨b', hb'⟩ | hrefuses := performs_or_refuses all b i
    · exfalso
      cases hb' with
      | retDedicated hs => simp [Fails, hs] at h
      | retOverlay hs hfit => simp only [Fails, hs] at h; omega
      | callDedicated hs hroom => simp only [Fails, hs] at h; omega
      | callOverlay hs hfit => simp only [Fails, hs] at h; omega
      | draw hat hfit => simp only [Fails] at h; omega
      | decimal hfit => simp only [Fails] at h; omega
      | store hfit => simp only [Fails] at h; omega
      | load hfit => simp only [Fails] at h; omega
      | _ => exact h
    · exact hrefuses

/-- An instruction fails at its call stack or at an address outside of the bank. -/
theorem Refuses.fault (h : Refuses all b i e b') :
    e = .stackUnderflow ∨ e = .stackOverflow ∨ ∃ a, e = .outOfBounds a b.memory.top := by
  cases h with
  | retDedicated => exact .inl rfl
  | callDedicated => exact .inr (.inl rfl)
  | _ => exact .inr (.inr ⟨_, rfl⟩)

/-- A failure leaves PC, I, the call stack and the screen alone. -/
theorem Refuses.frame (h : Refuses all b i e b') :
    b'.registers.pc = b.registers.pc ∧ b'.registers.i = b.registers.i ∧ b'.stack = b.stack ∧
      b'.screen = b.screen := by
  cases h <;> simp

/-! ### What all rows have in common -/

/-- No instruction changes the size of the bank. -/
theorem Performs.top_eq (h : Performs all b i b') : b'.memory.top = b.memory.top := by
  cases h <;> simp

/-- Nor does one that fails. -/
theorem Refuses.top_eq (h : Refuses all b i e b') : b'.memory.top = b.memory.top := by
  cases h <;> simp

/-! ### The bytes that an instruction stores -/

/-- The addresses at which an instruction stores a byte, as far as they are in the bank. A word that
does not fit is not stored at all. -/
def Board.StoresAt (all : Bool) (b : Board) : Instruction → Int → Prop
  | .call _, c => b.stack = .overlay ∧ b.nextSP + 1 ≤ b.memory.top ∧ b.nextSP ≤ c ∧ c < b.nextSP + 2
  | .decimal _, c => b.index ≤ c ∧ c < b.index + 3
  | .store x, c => b.index ≤ c ∧ c < b.index + (lastRegister all x + 1 : Nat)
  | _, _ => False

/-- All other bytes are as they were. -/
theorem Performs.byteAt_of_not_storesAt {c : Int} (h : Performs all b i b') (hout : ¬b.StoresAt all i c) :
    b'.memory.byteAt c = b.memory.byteAt c := by
  cases h with
  | callOverlay hstack hfit =>
    exact Memory.byteAt_setBlock_of_le (n := 2) (Nat.le_refl _) fun hin => hout ⟨hstack, hfit, hin⟩
  | decimal => exact Memory.byteAt_setBlock_of_le (n := 3) (Nat.le_refl _) hout
  | store => exact Memory.byteAt_setBlock_of_le (List.length_take_le _ _) hout
  | _ => rfl

/-- An instruction that fails stores no other byte either. -/
theorem Refuses.byteAt_of_not_storesAt {c : Int} (h : Refuses all b i e b') (hout : ¬b.StoresAt all i c) :
    b'.memory.byteAt c = b.memory.byteAt c := by
  cases h with
  | decimal => exact Memory.byteAt_setBlock_of_le (List.length_take_le' _ _) hout
  | store hend =>
    have hstored := List.length_take_le (b.memory.top + 1 - b.index).toNat b.registers.v.toList
    exact Memory.byteAt_setBlock_of_le (Nat.le_trans hstored (by omega)) hout
  | _ => rfl

end

/-! ### The bank after an instruction -/

/-- However an instruction ends, the bank has the size that it had. -/
theorem top_after_execute (all : Bool) (b : Board) (i : Instruction) :
    ((execute all i).after b).memory.top = b.memory.top := by
  obtain ⟨b', hrow⟩ | ⟨e, b', hrow⟩ := performs_or_refuses all b i
  · rw [Exec.after_of_ok (execute_of_performs hrow)]
    exact hrow.top_eq
  · rw [Exec.after_of_error (execute_of_refuses hrow)]
    exact hrow.top_eq

/-- And its bytes are as they were, except those that the instruction stores. -/
theorem byteAt_after_execute {all : Bool} {b : Board} {i : Instruction} {c : Int} (hout : ¬b.StoresAt all i c) :
    ((execute all i).after b).memory.byteAt c = b.memory.byteAt c := by
  obtain ⟨b', hrow⟩ | ⟨e, b', hrow⟩ := performs_or_refuses all b i
  · rw [Exec.after_of_ok (execute_of_performs hrow)]
    exact hrow.byteAt_of_not_storesAt hout
  · rw [Exec.after_of_error (execute_of_refuses hrow)]
    exact hrow.byteAt_of_not_storesAt hout

end Chip8

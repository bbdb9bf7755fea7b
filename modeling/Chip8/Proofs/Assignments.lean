import Chip8.Proofs.Keeping
import Chip8.Proofs.LastStored

/-!
# Where integers are cut

The registers, the pointers and the cells of the bank hold numbers below 256 or 65536. What is
assigned to them are integers: those that a caller gives, which may be of any size or negative, and
those that are computed, such as a sum of two bytes, the PC after the last word, an SP below the
first level, or an address that was taken from a list as it had been put there. An integer is cut
to its low bits where it is assigned, and nowhere before.

* `Performs.takes` and `Refuses.takesSome`: which integers an instruction assigns.
* `assigns_perform`: which integers a command assigns that executes no instruction.
* `assigns_of_executes`: those of a command that executes one.
-/

namespace Chip8

/-! ### Where numbers are kept -/

/-- Where a board keeps a number. -/
inductive Place
  /-- A register. -/
  | register (x : Nibble)
  /-- I. -/
  | index
  /-- PC. -/
  | pc
  /-- SP. -/
  | sp
  /-- A cell of the bank. -/
  | cell (a : Int)

/-- Numbers below this one have room there. -/
def Place.room : Place → Int
  | .index | .pc => 65536
  | .register _ | .sp | .cell _ => 256

theorem Word.toNat_emod (v : UInt8) : (v.toNat : Int) % 256 = v.toNat := by
  have := v.toNat_lt
  omega

/-- A byte that is replaced under a condition. -/
theorem Word.toNat_ite {c : Prop} [Decidable c] {v v' : UInt8} {w : Int} (hv : (v.toNat : Int) = w % 256) :
    ((if c then v else v').toNat : Int) = (if c then some w else none).getD v'.toNat % 256 := by
  split
  · exact hv
  · exact (Word.toNat_emod v').symm

/-- Bytes are read back from the numbers that they are. -/
theorem Word.map_low_toNat (bytes : List UInt8) : (bytes.map fun v => (v.toNat : Int)).map Word.low = bytes := by
  simp only [List.map_map, Function.comp_def, Word.low_toNat, List.map_id']

namespace Board

/-- The number that is kept there, zero outside the bank. -/
def number (b : Board) : Place → Int
  | .register x => (b.reg x).toNat
  | .index => b.index
  | .pc => b.pc
  | .sp => b.sp
  | .cell a => (b.memory.byteAt a).toNat

theorem number_mem (b : Board) (p : Place) : 0 ≤ b.number p ∧ b.number p < p.room := by
  have hbyte : ∀ v : UInt8, 0 ≤ (v.toNat : Int) ∧ (v.toNat : Int) < 256 := fun v =>
    ⟨Int.natCast_nonneg _, Int.ofNat_lt.mpr v.toNat_lt⟩
  have hword : ∀ w : UInt16, 0 ≤ (w.toNat : Int) ∧ (w.toNat : Int) < 65536 := fun w =>
    ⟨Int.natCast_nonneg _, Int.ofNat_lt.mpr w.toNat_lt⟩
  cases p with
  | index | pc => exact hword _
  | register | sp | cell => exact hbyte _

theorem number_emod (b : Board) (p : Place) : b.number p % p.room = b.number p :=
  Int.emod_eq_of_lt (b.number_mem p).1 (b.number_mem p).2

/-- Every place that there is an integer for has taken its low bits, and the others keep their
numbers. -/
def Takes (b : Board) (values : Place → Option Int) (b' : Board) : Prop :=
  ∀ p, b'.number p = (values p).getD (b.number p) % p.room

/-- Some places have taken the low bits of their integer, and the others keep their numbers. -/
def TakesSome (b : Board) (values : Place → Option Int) (b' : Board) : Prop :=
  ∀ p, b'.number p = b.number p ∨ ∃ v, values p = some v ∧ b'.number p = v % p.room

variable {b b' : Board} {values : Place → Option Int} {p : Place}

theorem number_kept (hnone : values p = none) (hsame : b'.number p = b.number p) :
    b'.number p = (values p).getD (b.number p) % p.room := by
  rw [hnone, Option.getD_none, number_emod, hsame]

theorem number_congr (hregisters : b'.registers = b.registers) (hmemory : b'.memory = b.memory) (p : Place) :
    b'.number p = b.number p := by
  cases p with
  | cell a => exact congrArg (fun m => ((m.byteAt a).toNat : Int)) hmemory
  | register x => exact congrArg (fun r => ((r.get x).toNat : Int)) hregisters
  | index => exact congrArg (fun r => (r.i.toNat : Int)) hregisters
  | pc => exact congrArg (fun r => (r.pc.toNat : Int)) hregisters
  | sp => exact congrArg (fun r => (r.sp.toNat : Int)) hregisters

end Board

/-! ### Integers in a row -/

/-- What integers in a row, from an address up, put at an address. -/
def laid (start : Int) (block : List Int) (a : Int) : Option Int :=
  if start ≤ a then block[(a - start).toNat]? else none

theorem laid_of_take {start a v : Int} {block : List Int} {k : Nat} (h : laid start (block.take k) a = some v) :
    laid start block a = some v := by
  obtain ⟨hstart, hv⟩ := Option.ite_none_right_eq_some.mp h
  rw [List.getElem?_take] at hv
  obtain ⟨-, hv⟩ := Option.ite_none_right_eq_some.mp hv
  rw [laid, if_pos hstart, hv]

namespace Memory

variable {m : Memory} {start : Int} (block : List Int)

/-- **Each cell of the block takes the low byte of its integer.** -/
theorem toNat_byteAt_setBlock (h0 : 0 ≤ start) (h1 : start + block.length - 1 ≤ m.top) (a : Int) :
    (((m.setBlock start (block.map Word.low)).byteAt a).toNat : Int) =
      (laid start block a).getD (m.byteAt a).toNat % 256 := by
  rw [byteAt_setBlock _ h0 (by rwa [List.length_map]), List.length_map]
  by_cases hin : start ≤ a ∧ a < start + block.length
  · have hplace : (a - start).toNat < block.length := by omega
    rw [if_pos hin, laid, if_pos hin.1, List.getD_eq_getElem?_getD, List.getElem?_map,
      List.getElem?_eq_getElem hplace]
    exact Word.toNat_low _
  · have hnone : laid start block a = none := by
      unfold laid
      split
      · exact List.getElem?_eq_none (by omega)
      · rfl
    rw [if_neg hin, hnone, Option.getD_none, Word.toNat_emod]

/-- If only what there are cells for is written, each cell has taken its integer or is as it was. -/
theorem toNat_byteAt_setBlock_take (h0 : 0 ≤ start) (a : Int) :
    let stored := m.setBlock start ((block.map Word.low).take (m.top + 1 - start).toNat)
    ((stored.byteAt a).toNat : Int) = (m.byteAt a).toNat ∨
      ∃ v, laid start block a = some v ∧ ((stored.byteAt a).toNat : Int) = v % 256 := by
  intro stored
  by_cases hstart : m.top + 1 < start
  · have hnone : stored = m := by
      simp only [stored, Int.toNat_of_nonpos (show m.top + 1 - start ≤ 0 by omega), List.take_zero, setBlock]
    exact .inl (by rw [hnone])
  · have hlength := List.length_take_le (m.top + 1 - start).toNat block
    have hcell := toNat_byteAt_setBlock (m := m) (block.take (m.top + 1 - start).toNat) h0 (by omega) a
    rw [List.map_take] at hcell
    cases hlaid : laid start (block.take (m.top + 1 - start).toNat) a with
    | none =>
      rw [hlaid, Option.getD_none, Word.toNat_emod] at hcell
      exact .inl hcell
    | some v =>
      rw [hlaid, Option.getD_some] at hcell
      exact .inr ⟨v, laid_of_take hlaid, hcell⟩

/-- **A write puts the low byte of each integer in its cell, or it leaves the bank alone.** -/
theorem toNat_byteAt_after_write {c : Command} {y : Exec Memory Unit}
    (hc : perform c = y >>= fun _ => pure .done) (hstored : c.stored m = block.map Word.low) :
    (∀ u, y.answer m = .ok u → ∀ a,
      (((y.after m).byteAt a).toNat : Int) = (laid c.target block a).getD (m.byteAt a).toNat % 256) ∧
    ∀ e, y.answer m = .error e → y.after m = m := by
  have hanswer : (perform c).answer m = (y.answer m).map fun _ => .done := by
    rw [hc, Exec.answer_bind_pure]
  have hafter : (perform c).after m = y.after m := by rw [hc, Exec.after_bind_pure]
  refine ⟨fun u hok a => ?_, fun e herror => ?_⟩
  · rw [hok] at hanswer
    rcases stores_or_spares m c a with ⟨v, ⟨-, hstart, hv⟩, hbyte⟩ | ⟨hspared, hbyte⟩
    · rw [hstored, List.getElem?_map] at hv
      obtain ⟨w, hw, rfl⟩ := Option.map_eq_some_iff.mp hv
      rw [← hafter, hbyte, laid, if_pos hstart, hw]
      exact Word.toNat_low w
    · have hnone : laid c.target block a = none := by
        refine Option.eq_none_iff_forall_ne_some.mpr fun w hw => ?_
        obtain ⟨hstart, hw⟩ := Option.ite_none_right_eq_some.mp hw
        refine hspared (Word.low w) ⟨⟨_, hanswer⟩, hstart, ?_⟩
        rw [hstored, List.getElem?_map, hw]
        rfl
      rw [← hafter, hbyte, hnone, Option.getD_none, Word.toNat_emod]
  · rw [herror] at hanswer
    obtain ⟨q, hmissing, -⟩ := answer_eq_error_iff.mp hanswer
    rw [← hafter, Exec.after_of_error (perform_of_missing hmissing)]

end Memory

/-! ### What an instruction assigns -/

namespace Board

/-- The integer that an instruction assigns to a place. The address to return to is what was put on a
list, or the word that an overlay has at SP. -/
def executed (all : Bool) (b : Board) : Instruction → Place → Option Int
  | .ret, .pc =>
    match b.stack with
    | .dedicated _ saved => saved.head?
    | .overlay => some (b.memory.wordAt b.sp)
  | .ret, .sp => some (b.sp - 2)
  | .jump a, .pc | .call a, .pc => some a.val
  | .call _, .sp => some (b.sp + 2)
  | .call _, .cell c =>
    match b.stack with
    | .dedicated _ _ => none
    | .overlay => laid b.nextSP [(b.pc + 2) / 256, b.pc + 2] c
  | .skipEq x k, .pc => some (if b.reg x = k then b.pc + 4 else b.pc + 2)
  | .skipNe x k, .pc => some (if b.reg x ≠ k then b.pc + 4 else b.pc + 2)
  | .skipSame x y, .pc => some (if b.reg x = b.reg y then b.pc + 4 else b.pc + 2)
  | _, .pc => some (b.pc + 2)
  | .set x k, .register z => if z = x then some k.toNat else none
  | .add x k, .register z => if z = x then some ((b.reg x).toNat + k.toNat) else none
  | .move x y, .register z => if z = x then some (b.reg y).toNat else none
  | .or x y, .register z => if z = x then some (b.reg x ||| b.reg y).toNat else none
  | .index a, .index => some a.val
  | .draw _ _ _, .register z => if z = Fin.last 15 then some (if b.screen.collides then 1 else 0) else none
  | .decimal x, .cell c => laid b.index (Digits.ofInt (b.reg x).toNat).toList c
  | .store x, .cell c =>
    laid b.index ((b.registers.v.toList.take (lastRegister all x + 1)).map fun v => (v.toNat : Int)) c
  | .load x, .register z =>
    if z.val < lastRegister all x + 1 then some (b.memory.byteAt (b.index + z.val)).toNat else none
  | _, _ => none

end Board

section

variable {all : Bool} {b b' : Board} {i : Instruction} {e : Fault}

/-- One register is assigned an integer. -/
theorem Board.toNat_get_set {x z : Nibble} {v : UInt8} {w : Int} (hv : (v.toNat : Int) = w % 256) :
    (((b.registers.set x v).get z).toNat : Int) =
      (if z = x then some w else none).getD (b.reg z).toNat % 256 := by
  rw [Registers.get_set]
  exact Word.toNat_ite hv

/-- The first registers are assigned the bytes of the bank. -/
theorem Board.toNat_get_loaded (n : Nat) (z : Nibble) :
    (((b.registers.loaded b.memory b.index n).get z).toNat : Int) =
      (if z.val < n then some ((b.memory.byteAt (b.index + z.val)).toNat : Int) else none).getD (b.reg z).toNat %
        256 := by
  rw [Registers.get_loaded]
  exact Word.toNat_ite (Word.toNat_emod _).symm

open Board

/-- **An instruction that performs assigns its integers.** -/
theorem Performs.takes (h : Performs all b i b') : b.Takes (b.executed all i) b' := by
  intro p
  cases h with
  | clear | jump | skipEq | skipNe | skipSame =>
    cases p with
    | pc => exact Word.toNat_ofInt _
    | _ => exact number_kept rfl rfl
  | index =>
    cases p with
    | pc | index => exact Word.toNat_ofInt _
    | _ => exact number_kept rfl rfl
  | set | move | or =>
    cases p with
    | pc => exact Word.toNat_ofInt _
    | register z => exact toNat_get_set (Word.toNat_emod _).symm
    | _ => exact number_kept rfl rfl
  | add =>
    cases p with
    | pc => exact Word.toNat_ofInt _
    | register z => exact toNat_get_set (Word.toNat_low _)
    | _ => exact number_kept rfl rfl
  | draw =>
    cases p with
    | pc => exact Word.toNat_ofInt _
    | register z => exact toNat_get_set (by cases b.screen.collides <;> rfl)
    | _ => exact number_kept rfl rfl
  | retDedicated hstack | retOverlay hstack =>
    cases p with
    | pc =>
      simp only [executed, hstack]
      exact Word.toNat_ofInt _
    | sp => exact Word.toNat_low _
    | _ => exact number_kept rfl rfl
  | callDedicated hstack =>
    cases p with
    | pc => exact Word.toNat_ofInt _
    | sp => exact Word.toNat_low _
    | cell c => exact number_kept (by simp only [executed, hstack]) rfl
    | _ => exact number_kept rfl rfl
  | callOverlay hstack hfit =>
    cases p with
    | pc => exact Word.toNat_ofInt _
    | sp => exact Word.toNat_low _
    | cell c =>
      have hword : b.nextSP + (2 : Nat) - 1 ≤ b.memory.top := by omega
      simp only [executed, hstack]
      exact Memory.toNat_byteAt_setBlock [(b.pc + 2) / 256, b.pc + 2] b.nextSP_nonneg hword c
    | _ => exact number_kept rfl rfl
  | @decimal x hfit =>
    cases p with
    | pc => exact Word.toNat_ofInt _
    | cell c =>
      have hdigits : b.index + (3 : Nat) - 1 ≤ b.memory.top := by omega
      rw [← map_low_digits]
      exact Memory.toNat_byteAt_setBlock (Digits.ofInt (b.reg x).toNat).toList b.index_nonneg hdigits c
    | _ => exact number_kept rfl rfl
  | @store x hfit =>
    cases p with
    | pc => exact Word.toNat_ofInt _
    | cell c =>
      have hlength := length_take_registers b.registers (lastRegister_lt all x)
      have hcell := Memory.toNat_byteAt_setBlock (m := b.memory)
        ((b.registers.v.toList.take (lastRegister all x + 1)).map fun v => (v.toNat : Int)) b.index_nonneg
        (by rw [List.length_map, hlength]; omega) c
      rwa [Word.map_low_toNat] at hcell
    | _ => exact number_kept rfl rfl
  | @load x hfit =>
    -- unfolded by name, since the loaded registers must not be compared with those before
    cases p with
    | pc =>
      simp only [number, Board.pc, Registers.pc_setPC]
      exact Word.toNat_ofInt _
    | register z =>
      simp only [number, Board.reg, Registers.get_setPC]
      exact toNat_get_loaded _ z
    | index => exact number_kept rfl (by simp only [number, Board.index, Registers.i_setPC, Registers.i_loaded])
    | sp => exact number_kept rfl (by simp only [number, Board.sp, Registers.sp_setPC, Registers.sp_loaded])
    | cell c => exact number_kept rfl (by simp only [number])

/-- One that fails may have assigned some of them. -/
theorem Refuses.takesSome (h : Refuses all b i e b') : b.TakesSome (b.executed all i) b' := by
  intro p
  cases h with
  | retDedicated | retOverlay | callDedicated | drawStart | drawEnd => exact .inl rfl
  | callOverlay hstack =>
    cases p with
    | sp => exact .inr ⟨_, rfl, Word.toNat_low _⟩
    | _ => exact .inl rfl
  | @decimal x hend =>
    cases p with
    | cell c =>
      rw [← map_low_digits]
      exact Memory.toNat_byteAt_setBlock_take (Digits.ofInt (b.reg x).toNat).toList b.index_nonneg c
    | _ => exact .inl rfl
  | @store x hend =>
    cases p with
    | cell c =>
      have hcell := Memory.toNat_byteAt_setBlock_take (m := b.memory)
        ((b.registers.v.toList.take (lastRegister all x + 1)).map fun v => (v.toNat : Int)) b.index_nonneg c
      have hcount : (b.memory.top + 1 - b.index).toNat ≤ lastRegister all x + 1 := by omega
      rwa [Word.map_low_toNat, List.take_take, Nat.min_eq_left hcount] at hcell
    | _ => exact .inl rfl
  | @load x hend =>
    cases p with
    | register z =>
      simp only [number, Board.reg]
      have hget := toNat_get_loaded (b := b) (b.memory.top + 1 - b.index).toNat z
      by_cases hz : z.val < (b.memory.top + 1 - b.index).toNat
      · rw [if_pos hz] at hget
        exact .inr ⟨_, if_pos (by omega), hget⟩
      · rw [if_neg hz, Option.getD_none, Word.toNat_emod] at hget
        exact .inl hget
    | index => exact .inl (by simp only [number, Board.index, Registers.i_loaded])
    | pc => exact .inl (by simp only [number, Board.pc, Registers.pc_loaded])
    | sp => exact .inl (by simp only [number, Board.sp, Registers.sp_loaded])
    | cell c => exact .inl (by simp only [number])

end

namespace Machine

open Exec Board

variable {m : Machine} {α : Type}

/-! ### What a command assigns -/

/-- Integers in a row are written to the bank, and nowhere else. -/
def written (start : Int) (block : List Int) : Place → Option Int
  | .cell a => laid start block a
  | _ => none

/-- The integer that a command assigns to a place if it is done. It is one that the caller gives, or
is counted from where a pointer stands. -/
def assigned (m : Machine) : Command → Place → Option Int
  | .load program location, p => written location (program.map fun b => (b.toNat : Int)) p
  | .writeByte location byte, p => written location [byte] p
  | .writeWord location word, p => written location [word / 256, word] p
  | .writeRegister index byte, .register x => if index = x.val then some byte else none
  | .setI value, .index => some value
  | .setPC value, .pc => some value
  | .setSP value, .sp => some value
  | .push _, .sp => some (m.board.sp + 2)
  | .push address, .cell a =>
    match m.board.stack with
    | .dedicated _ _ => none
    | .overlay => laid m.board.nextSP [address / 256, address] a
  | .pop, .sp => some (m.board.sp - 2)
  | .advance, .pc => some (m.board.pc + 2)
  | _, _ => none

/-- A command that executes no instruction. -/
def Command.isDirect : Command → Bool
  | .step | .execute _ | .run _ _ => false
  | _ => true

/-- What the operation assigns: these integers and nothing else. If it faults, it may not have come to
all of them. -/
structure Assigns (values : Place → Option Int) (x : Exec Machine α) (m : Machine) : Prop where
  of_ok : ∀ a, x.answer m = .ok a → m.board.Takes values (x.after m).board
  of_error : ∀ e, x.answer m = .error e → m.board.TakesSome values (x.after m).board

variable {values : Place → Option Int} {x : Exec Machine α}

theorem assigns_of_ok {a : α} {s : Machine} (h : x m = .ok a s) (hs : m.board.Takes values s.board) :
    Assigns values x m := by
  rw [← Exec.after_of_ok h] at hs
  refine ⟨fun _ _ => hs, fun e he => ?_⟩
  rw [Exec.answer_of_ok h] at he
  cases he

theorem assigns_of_error {e : Fault} {s : Machine} (h : x m = .error e s)
    (hs : m.board.TakesSome values s.board) : Assigns values x m := by
  rw [← Exec.after_of_error h] at hs
  refine ⟨fun a ha => ?_, fun _ _ => hs⟩
  rw [Exec.answer_of_error h] at ha
  cases ha

/-- An operation that changes no number. -/
theorem assigns_nothing (hnone : ∀ p, values p = none)
    (hsame : (x.after m).registers = m.registers ∧ (x.after m).memory = m.memory) : Assigns values x m :=
  ⟨fun _ _ p => number_kept (hnone p) (number_congr hsame.1 hsame.2 p),
    fun _ _ p => .inl (number_congr hsame.1 hsame.2 p)⟩

/-- A command that writes to the bank. -/
theorem assigns_write {c : Memory.Command} {y : Exec Memory Unit} (block : List Int)
    (hc : Memory.perform c = y >>= fun _ => pure .done) (hstored : c.stored m.memory = block.map Word.low)
    (hvalues : values = written c.target block) : Assigns values (onMemory y >>= fun _ => pure Reply.done) m := by
  obtain ⟨hok, herror⟩ := Memory.toNat_byteAt_after_write block hc hstored
  refine ⟨fun r hr p => ?_, fun e he p => .inl ?_⟩
  · rw [after_onMemory]
    rw [answer_onMemory] at hr
    cases hy : y.answer m.memory with
    | error e =>
      rw [hy] at hr
      cases hr
    | ok u =>
      cases p with
      | cell a => exact hvalues ▸ hok u hy a
      | _ => exact number_kept (hvalues ▸ rfl) rfl
  · rw [after_onMemory]
    rw [answer_onMemory] at he
    cases hy : y.answer m.memory with
    | error e => rw [herror e hy]; rfl
    | ok u =>
      rw [hy] at he
      cases he

/-- A command that moves pointers. -/
theorem assigns_move (f : Registers → Registers)
    (hf : m.board.Takes values { m.board with registers := f m.registers }) :
    Assigns values (onBoard (Board.move f) >>= fun _ => pure Reply.done) m :=
  ⟨fun _ _ => hf, fun e he => by cases he⟩

theorem assigns_writeRegister (fuel : Nat) (m : Machine) (index byte : Int) :
    Assigns (m.assigned (.writeRegister index byte)) (perform fuel (.writeRegister index byte)) m := by
  by_cases hindex : 0 ≤ index ∧ index < 16
  · have hperform : perform fuel (.writeRegister index byte) m = .ok .done { m with board :=
        { m.board with registers := m.registers.set ⟨index.toNat, by omega⟩ (Word.low byte) } } := by
      rw [perform, Exec.bind_apply, onRegisters, onBoard_apply, Board.onRegisters, Exec.within_apply,
        Registers.write_of_lt hindex]
      rfl
    refine assigns_of_ok hperform fun p => ?_
    cases p with
    | register x =>
      have hplace : x = ⟨index.toNat, by omega⟩ ↔ index = x.val := by
        rw [Fin.ext_iff]
        simp only
        omega
      have hget := Registers.get_set m.registers ⟨index.toNat, by omega⟩ x (Word.low byte)
      rw [if_congr hplace rfl rfl] at hget
      exact (congrArg (fun v => (v.toNat : Int)) hget).trans (Word.toNat_ite (Word.toNat_low byte))
    | _ => exact number_kept rfl rfl
  · have hperform : perform fuel (.writeRegister index byte) m = .error (.noRegister index) m := by
      rw [perform, Exec.bind_apply, onRegisters, onBoard_apply, Board.onRegisters, Exec.within_apply,
        Registers.write_of_not_lt hindex]
    exact assigns_of_error hperform fun p => .inl rfl

theorem assigns_push (fuel : Nat) (m : Machine) (address : Int) :
    Assigns (m.assigned (.push address)) (perform fuel (.push address)) m := by
  have hperform := perform_push fuel m address
  cases hstack : m.board.stack with
  | dedicated capacity saved =>
    rw [Board.push_dedicated hstack] at hperform
    by_cases hfull : capacity ≤ saved.length
    · rw [if_pos hfull] at hperform
      exact assigns_of_error hperform fun p => .inl rfl
    · rw [if_neg hfull] at hperform
      refine assigns_of_ok hperform fun p => ?_
      cases p with
      | sp => exact Word.toNat_low _
      | _ => exact number_kept (by simp only [assigned, hstack]) rfl
  | overlay =>
    rw [Board.push_overlay hstack, Board.sp_raised] at hperform
    rcases Int.lt_or_le m.board.memory.top (m.board.nextSP + 1) with hend | hfit
    · -- SP has moved before the write faults
      rw [Memory.writeWord_of_gt address m.board.nextSP_nonneg hend] at hperform
      refine assigns_of_error hperform fun p => ?_
      cases p with
      | sp => exact .inr ⟨_, rfl, Word.toNat_low _⟩
      | _ => exact .inl rfl
    · have hword : m.board.nextSP + (2 : Nat) - 1 ≤ m.board.memory.top := by omega
      rw [Memory.writeWord_of_le address m.board.nextSP_nonneg hfit] at hperform
      refine assigns_of_ok hperform fun p => ?_
      cases p with
      | sp => exact Word.toNat_low _
      | cell a =>
        simp only [assigned, hstack]
        exact Memory.toNat_byteAt_setBlock [address / 256, address] m.board.nextSP_nonneg hword a
      | _ => exact number_kept rfl rfl

theorem assigns_pop (fuel : Nat) (m : Machine) : Assigns (m.assigned .pop) (perform fuel .pop) m := by
  have hperform := perform_pop fuel m
  cases hstack : m.board.stack with
  | dedicated capacity saved =>
    cases saved with
    | nil =>
      rw [Board.pop_dedicated_nil hstack] at hperform
      exact assigns_of_error hperform fun p => .inl rfl
    | cons a rest =>
      rw [Board.pop_dedicated_cons hstack] at hperform
      refine assigns_of_ok hperform fun p => ?_
      cases p with
      | sp => exact Word.toNat_low _
      | _ => exact number_kept rfl rfl
  | overlay =>
    rw [Board.pop_overlay hstack] at hperform
    have hlooks : (Memory.readWord m.board.registers.sp.toNat).after m.board.memory = m.board.memory :=
      Memory.keeps_readWord (P := (· = m.board.memory)) _ _ rfl
    cases hread : Memory.readWord m.board.registers.sp.toNat m.board.memory with
    | ok w c =>
      rw [hread] at hperform
      obtain rfl : c = m.board.memory := (Exec.after_of_ok hread).symm.trans hlooks
      refine assigns_of_ok hperform fun p => ?_
      cases p with
      | sp => exact Word.toNat_low _
      | _ => exact number_kept rfl rfl
    | error e c =>
      rw [hread] at hperform
      obtain rfl : c = m.board.memory := (Exec.after_of_error hread).symm.trans hlooks
      exact assigns_of_error hperform fun p => .inl rfl

/-- **A command that executes no instruction assigns its integers**, each cut to the room of its place. -/
theorem assigns_perform (fuel : Nat) {c : Command} (hc : c.isDirect = true) :
    Assigns (m.assigned c) (perform fuel c) m := by
  cases c with
  | readByte | readWord | readBlock | checkRegister | readRegister | savedAddresses | fetch | tracing | describe =>
    exact assigns_nothing (fun _ => rfl)
      (keeps_of_looks (P := fun s => s.registers = m.registers ∧ s.memory = m.memory) fuel rfl m ⟨rfl, rfl⟩)
  | setTracing | note | reportCrash | list =>
    exact assigns_nothing (fun _ => rfl)
      (keeps_of_reports (P := fun s => s.registers = m.registers ∧ s.memory = m.memory) (fun _ _ h => h) fuel rfl m
        ⟨rfl, rfl⟩)
  | useStack | newProcessor => exact assigns_nothing (fun _ => rfl) ⟨rfl, rfl⟩
  | load program location =>
    exact assigns_write (c := .writeBlock location program) _ rfl (Word.map_low_toNat program).symm rfl
  | writeByte a b => exact assigns_write (c := .write a b) [b] rfl rfl rfl
  | writeWord a w => exact assigns_write (c := .writeWord a w) [w / 256, w] rfl rfl rfl
  | writeRegister index byte => exact assigns_writeRegister fuel m index byte
  | setI value =>
    refine assigns_move _ fun p => ?_
    cases p with
    | index => exact Word.toNat_ofInt value
    | _ => exact number_kept rfl rfl
  | setPC value =>
    refine assigns_move _ fun p => ?_
    cases p with
    | pc => exact Word.toNat_ofInt value
    | _ => exact number_kept rfl rfl
  | setSP value =>
    refine assigns_move _ fun p => ?_
    cases p with
    | sp => exact Word.toNat_low value
    | _ => exact number_kept rfl rfl
  | advance =>
    refine assigns_move _ fun p => ?_
    rw [Registers.advance_eq]
    cases p with
    | pc => exact Word.toNat_ofInt _
    | _ => exact number_kept rfl rfl
  | push address => exact assigns_push fuel m address
  | pop => exact assigns_pop fuel m
  | step | execute | run => cases hc

/-! ### Commands that execute an instruction -/

/-- **A command that comes to an instruction assigns the integers of the instruction.** -/
theorem assigns_of_executes (fuel : Nat) {c : Command} {i : Instruction} (h : m.Executes c i) :
    Assigns (m.board.executed m.processor.transferAll i) (perform fuel c) m := by
  obtain ⟨hanswer, hboard, -⟩ := perform_of_executes fuel h
  obtain ⟨b, hrow⟩ | ⟨e, b, hrow⟩ := performs_or_refuses m.processor.transferAll m.board i
  · have hexecute := execute_of_performs hrow
    rw [Exec.answer_of_ok hexecute] at hanswer
    rw [Exec.after_of_ok hexecute] at hboard
    exact assigns_of_ok (Exec.eq_ok_of_answer hanswer) (hboard ▸ hrow.takes)
  · have hexecute := execute_of_refuses hrow
    rw [Exec.answer_of_error hexecute] at hanswer
    rw [Exec.after_of_error hexecute] at hboard
    exact assigns_of_error (Exec.eq_error_of_answer hanswer) (hboard ▸ hrow.takesSome)

/-- One that comes to none assigns nothing. -/
theorem assigns_of_not_executes (fuel : Nat) {c : Command} (hc : c.isInstruction = true)
    (h : ∀ i, ¬m.Executes c i) : Assigns (fun _ => none) (perform fuel c) m := by
  obtain ⟨hboard, -⟩ := perform_of_not_executes fuel hc h
  refine assigns_nothing (fun _ => rfl) ?_
  rw [registers, memory, hboard]
  exact ⟨rfl, rfl⟩

end Machine

end Chip8

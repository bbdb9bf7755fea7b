import Chip8.Proofs.Commands

/-!
# Registers saved and reloaded

Storing the first registers at I and loading them from there are inverse to each other. Registers
that were stored come back when they are loaded, whatever was executed in between, as long as it
spares the bytes where they are and I is back where it was. Registers that were loaded are
stored as the bytes that are there already.

Both transfers take the registers up to a last one, which is the one that the instruction names or
VF. A machine that was built to transfer all does with any register what another one does with
VF, and nothing above the last register or its byte is touched.

* `get_loaded_of_setBlock` and `setBlock_loaded`: the two transfers after each other.
* `byteAt_afterCommands`: what instructions in a row leave alone.
* `block_transfers_invert`: the two transfers on a machine, with instructions in between.
-/

namespace Chip8

/-! ### One transfer after the other -/

section

variable {m : Memory} {a : Int} {n : Nat} (r r' : Registers)

theorem getElem_take_registers {k : Nat} (hk : k < (r.v.toList.take n).length) (h16 : k < 16) :
    (r.v.toList.take n)[k] = r.get ⟨k, h16⟩ := by
  simp [Registers.get]

/-- Registers that were stored are loaded again from any memory that still has their bytes. -/
theorem get_loaded_of_setBlock {m' : Memory} (hn : n ≤ 16) (h0 : 0 ≤ a) (h1 : a + n - 1 ≤ m.top)
    (hkept : ∀ p, a ≤ p → p < a + n → m'.byteAt p = (m.setBlock a (r.v.toList.take n)).byteAt p) (y : Nibble) :
    (r'.loaded m' a n).get y = if y.val < n then r.get y else r'.get y := by
  have hlength := length_take_registers r hn
  rw [Registers.get_loaded]
  split
  case isTrue hy =>
    have hplace : y.val < (r.v.toList.take n).length := by omega
    rw [hkept _ (by omega) (by omega), Memory.byteAt_setBlock_add h0 (by omega) hplace,
      getElem_take_registers r hplace y.isLt]
  case isFalse => rfl

/-- Registers that were loaded are stored where they came from, which changes nothing. -/
theorem setBlock_loaded (hn : n ≤ 16) (h0 : 0 ≤ a) (h1 : a + n - 1 ≤ m.top) :
    m.setBlock a ((r.loaded m a n).v.toList.take n) = m := by
  have hlength := length_take_registers (r.loaded m a n) hn
  refine Memory.ext_byteAt (Memory.size_setBlock _) fun c _ => ?_
  by_cases hin : a ≤ c ∧ c < a + n
  · obtain ⟨k, rfl⟩ : ∃ k : Nat, c = a + k := ⟨(c - a).toNat, by omega⟩
    have hk : k < ((r.loaded m a n).v.toList.take n).length := by omega
    have hkn : k < n := by omega
    rw [Memory.byteAt_setBlock_add h0 (by omega) hk, getElem_take_registers _ hk (by omega),
      Registers.get_loaded, if_pos hkn]
  · exact Memory.byteAt_setBlock_of_not_mem _ (by omega)

end

/-- To transfer all is to transfer up to VF. -/
theorem blockRegisters_all (x : Nibble) : blockRegisters true x = blockRegisters false 0xF := rfl

theorem execute_store_all (x : Nibble) : execute true (.store x) = execute false (.store 0xF) := by
  simp only [execute, blockRegisters_all]

theorem execute_load_all (x : Nibble) : execute true (.load x) = execute false (.load 0xF) := by
  simp only [execute, blockRegisters_all]

/-- Storing changes no register, and loading none above the last one. -/
theorem reg_after_transfer {all : Bool} {b : Board} {x y : Nibble} {i : Instruction}
    (hi : i = .store x ∨ i = .load x) (hy : lastRegister all x < y.val) :
    ((execute all i).after b).reg y = b.reg y := by
  obtain ⟨b', hrow⟩ | ⟨e, b', hrow⟩ := performs_or_refuses all b i
  · rw [Exec.after_of_ok (execute_of_performs hrow)]
    rcases hi with rfl | rfl <;> cases hrow
    · simp [Board.reg]
    · simp only [Board.reg, Registers.get_setPC, Registers.get_loaded]
      rw [if_neg (by omega)]
  · rw [Exec.after_of_error (execute_of_refuses hrow)]
    rcases hi with rfl | rfl <;> cases hrow
    · rfl
    · simp only [Board.reg, Registers.get_loaded]
      rw [if_neg (by omega)]

namespace Machine

open Instruction

variable {fuel : Nat} {m : Machine} {c : Command} {cs : List Command} {i : Instruction} {p : Int}

/-! ### Instructions in a row -/

/-- None of the instructions in a row stores a byte at the address. -/
def KeepsOff (fuel : Nat) (p : Int) (m : Machine) : List Command → Prop
  | [] => True
  | c :: cs =>
    (∀ i, m.Executes c i → ¬m.board.StoresAt m.processor.transferAll i p) ∧
      ((perform fuel c).after m).KeepsOff fuel p cs

theorem byteAt_after_instruction (hc : c.isInstruction = true)
    (hout : ∀ i, m.Executes c i → ¬m.board.StoresAt m.processor.transferAll i p) :
    ((perform fuel c).after m).memory.byteAt p = m.memory.byteAt p := by
  by_cases hnone : ∀ i, ¬m.Executes c i
  · obtain ⟨hboard, -⟩ := perform_of_not_executes fuel hc hnone
    rw [memory, hboard]
    rfl
  · obtain ⟨i, hi⟩ := not_forall_not.mp hnone
    obtain ⟨-, hboard, -⟩ := perform_of_executes fuel hi
    rw [memory, hboard]
    exact byteAt_after_execute (hout i hi)

/-- No instruction changes the size of the bank or which registers a transfer takes. -/
theorem setting_after_instruction (fuel : Nat) (hc : c.isInstruction = true) :
    ((perform fuel c).after m).memory.top = m.memory.top ∧
    ((perform fuel c).after m).processor.transferAll = m.processor.transferAll := by
  by_cases hnone : ∀ i, ¬m.Executes c i
  · obtain ⟨hboard, hall⟩ := perform_of_not_executes fuel hc hnone
    rw [memory, hboard]
    exact ⟨rfl, hall⟩
  · obtain ⟨i, hi⟩ := not_forall_not.mp hnone
    obtain ⟨-, hboard, hall⟩ := perform_of_executes fuel hi
    rw [memory, hboard]
    exact ⟨top_after_execute _ _ _, hall⟩

/-- **Bytes that no instruction in a row stores are as they were after all of them.** -/
theorem byteAt_afterCommands (hcs : ∀ c ∈ cs, c.isInstruction = true) (hoff : m.KeepsOff fuel p cs) :
    (afterCommands fuel m cs).memory.byteAt p = m.memory.byteAt p := by
  induction cs generalizing m with
  | nil => rfl
  | cons c cs ih =>
    have hc := hcs c List.mem_cons_self
    obtain ⟨hfirst, hrest⟩ := hoff
    rw [afterCommands, ih (fun d hd => hcs d (List.mem_cons_of_mem c hd)) hrest]
    exact byteAt_after_instruction hc hfirst

theorem setting_afterCommands (fuel : Nat) (hcs : ∀ c ∈ cs, c.isInstruction = true) :
    (afterCommands fuel m cs).memory.top = m.memory.top ∧
    (afterCommands fuel m cs).processor.transferAll = m.processor.transferAll := by
  induction cs generalizing m with
  | nil => exact ⟨rfl, rfl⟩
  | cons c cs ih =>
    obtain ⟨htop, hall⟩ := setting_after_instruction fuel (m := m) (hcs c List.mem_cons_self)
    obtain ⟨htop', hall'⟩ := ih (m := (perform fuel c).after m) fun d hd => hcs d (List.mem_cons_of_mem c hd)
    exact ⟨htop'.trans htop, hall'.trans hall⟩

/-! ### Saving and reloading -/

section

variable {x : Nibble} {save restore : Command}

/-- Storing registers that there are bytes for. -/
theorem store_of_executes (fuel : Nat) (h : m.Executes c (.store x))
    (hfit : m.board.index + lastRegister m.processor.transferAll x ≤ m.memory.top) :
    (perform fuel c).answer m = .ok .done ∧
    ((perform fuel c).after m).memory = m.memory.setBlock m.board.index
      (m.registers.v.toList.take (lastRegister m.processor.transferAll x + 1)) := by
  obtain ⟨hanswer, hrow⟩ := performs_of_executes fuel h (Int.not_lt.mpr hfit)
  refine ⟨hanswer, ?_⟩
  rw [memory]
  generalize ((perform fuel c).after m).board = b at hrow
  cases hrow
  rfl

/-- Loading registers that there are bytes for. -/
theorem load_of_executes (fuel : Nat) (h : m.Executes c (.load x))
    (hfit : m.board.index + lastRegister m.processor.transferAll x ≤ m.memory.top) :
    (perform fuel c).answer m = .ok .done ∧
    ((perform fuel c).after m).memory = m.memory ∧
    ((perform fuel c).after m).registers =
      (m.registers.loaded m.memory m.board.index (lastRegister m.processor.transferAll x + 1)).setPC
        (m.board.pc + 2) := by
  obtain ⟨hanswer, hrow⟩ := performs_of_executes fuel h (Int.not_lt.mpr hfit)
  refine ⟨hanswer, ?_⟩
  rw [memory, registers]
  generalize ((perform fuel c).after m).board = b at hrow
  cases hrow
  exact ⟨rfl, rfl⟩

/-- What is stored, left alone and loaded again comes back. -/
theorem reg_of_stored_of_loaded (hstore : m.Executes save (.store x)) (hcs : ∀ c ∈ cs, c.isInstruction = true)
    (hoff : ∀ p, m.board.index ≤ p → p ≤ m.board.index + lastRegister m.processor.transferAll x →
      ((perform fuel save).after m).KeepsOff fuel p cs)
    (hindex : (afterCommands fuel ((perform fuel save).after m) cs).board.index = m.board.index)
    (hload : (afterCommands fuel ((perform fuel save).after m) cs).Executes restore (.load x))
    (hfit : m.board.index + lastRegister m.processor.transferAll x ≤ m.memory.top) :
    let later := afterCommands fuel ((perform fuel save).after m) cs
    let restored := (perform fuel restore).after later
    (perform fuel restore).answer later = .ok .done ∧
    (∀ y, restored.board.reg y =
      if y.val < lastRegister m.processor.transferAll x + 1 then m.board.reg y else later.board.reg y) ∧
    restored.board.index = m.board.index := by
  intro later restored
  obtain ⟨-, hsaved⟩ := store_of_executes fuel hstore hfit
  obtain ⟨-, -, hall⟩ := perform_of_executes fuel hstore
  obtain ⟨htop', hall'⟩ := setting_afterCommands fuel (m := (perform fuel save).after m) hcs
  have hlast : lastRegister later.processor.transferAll x = lastRegister m.processor.transferAll x := by
    rw [hall', hall]
  have htop : later.memory.top = m.memory.top := by
    rw [htop', hsaved, Memory.top_setBlock]
  obtain ⟨hanswer, -, hrestored⟩ := load_of_executes fuel hload (by rw [hlast, hindex, htop]; exact hfit)
  rw [hlast, hindex] at hrestored
  have h16 := lastRegister_lt m.processor.transferAll x
  have hindex0 : 0 ≤ m.board.index := Int.natCast_nonneg _
  refine ⟨hanswer, fun y => ?_, ?_⟩
  · -- the bytes at I are still those that were stored
    have hkept : ∀ p, m.board.index ≤ p →
        p < m.board.index + (lastRegister m.processor.transferAll x + 1 : Nat) →
        later.memory.byteAt p = (m.memory.setBlock m.board.index
          (m.registers.v.toList.take (lastRegister m.processor.transferAll x + 1))).byteAt p :=
      fun p h0 h1 => hsaved ▸ byteAt_afterCommands hcs (hoff p h0 (by omega))
    have hget := get_loaded_of_setBlock m.registers later.registers (n := lastRegister m.processor.transferAll x + 1)
      (by omega) hindex0 (by omega) hkept y
    calc restored.board.reg y = restored.registers.get y := rfl
      _ = _ := by rw [hrestored, Registers.get_setPC, hget]; rfl
  · calc restored.board.index = (restored.registers.i.toNat : Int) := rfl
      _ = later.board.index := by rw [hrestored, Registers.i_setPC, Registers.i_loaded]; rfl
      _ = m.board.index := hindex

/-- What is loaded and stored at once leaves memory as it was. -/
theorem memory_of_loaded_of_stored (hload : m.Executes restore (.load x))
    (hstore : ((perform fuel restore).after m).Executes save (.store x))
    (hfit : m.board.index + lastRegister m.processor.transferAll x ≤ m.memory.top) :
    let loaded := (perform fuel restore).after m
    (perform fuel save).answer loaded = .ok .done ∧ ((perform fuel save).after loaded).memory = m.memory := by
  intro loaded
  obtain ⟨-, hmemory, hregisters⟩ := load_of_executes fuel hload hfit
  obtain ⟨-, -, hall⟩ := perform_of_executes fuel hload
  have hlast : lastRegister loaded.processor.transferAll x = lastRegister m.processor.transferAll x := by
    rw [hall]
  have hindex : loaded.board.index = m.board.index := by
    calc loaded.board.index = (loaded.registers.i.toNat : Int) := rfl
      _ = m.board.index := by rw [hregisters, Registers.i_setPC, Registers.i_loaded]; rfl
  obtain ⟨hanswer, hstored⟩ := store_of_executes fuel hstore (by rw [hlast, hindex, hmemory]; exact hfit)
  rw [hlast, hindex, hmemory, hregisters] at hstored
  refine ⟨hanswer, hstored.trans ?_⟩
  have h16 := lastRegister_lt m.processor.transferAll x
  exact setBlock_loaded m.registers (by omega) (Int.natCast_nonneg _) (by omega)

/-- Two machines with the same board do the same where their instructions do the same. -/
theorem perform_agrees_of_execute (fuel : Nat) {other : Machine} {d : Command} {j : Instruction}
    (hboard : other.board = m.board) (hi : m.Executes c i) (hj : other.Executes d j)
    (hsame : execute m.processor.transferAll i = execute other.processor.transferAll j) :
    (perform fuel c).answer m = (perform fuel d).answer other ∧
    ((perform fuel c).after m).board = ((perform fuel d).after other).board := by
  obtain ⟨hanswer, hdone, -⟩ := perform_of_executes fuel hi
  obtain ⟨hanswer', hdone', -⟩ := perform_of_executes fuel hj
  rw [hsame] at hanswer hdone
  rw [hboard] at hanswer' hdone'
  exact ⟨hanswer.trans hanswer'.symm, hdone.trans hdone'.symm⟩

/-- A transfer spares the registers above the last one and the bytes above the one of this register. -/
theorem transfer_spares (fuel : Nat) (h : m.Executes c (.store x) ∨ m.Executes c (.load x)) :
    let last := lastRegister m.processor.transferAll x
    let done := (perform fuel c).after m
    (∀ y, last < y.val → done.board.reg y = m.board.reg y) ∧
    ∀ p, m.board.index + last < p → done.memory.byteAt p = m.memory.byteAt p := by
  intro last done
  obtain ⟨i, hi, hkind⟩ : ∃ i, m.Executes c i ∧ (i = .store x ∨ i = .load x) := by
    rcases h with hi | hi
    · exact ⟨_, hi, .inl rfl⟩
    · exact ⟨_, hi, .inr rfl⟩
  obtain ⟨-, hdone, -⟩ := perform_of_executes fuel hi
  refine ⟨fun y hy => ?_, fun p hp => ?_⟩
  · rw [hdone]
    exact reg_after_transfer hkind hy
  · rw [memory, hdone]
    refine byteAt_after_execute fun hstores => ?_
    rcases hkind with rfl | rfl
    · obtain ⟨-, hlt⟩ := hstores
      omega
    · exact hstores

end

/-- **Storing registers and loading them are inverse to each other.** Say that there are bytes in the bank
for all registers of a transfer at I. If they are stored, and what is executed then stores nothing
among these bytes and leaves I where it was, then loading brings them back; the registers above
the last one are those from before the loading. If registers are loaded and stored at once,
memory is as it was. A machine that transfers all treats any register as another one treats VF,
and one that does not touches no register above the one that is named and no byte above its own. -/
theorem block_transfers_invert (m : Machine) (x : Nibble) (fuel : Nat) :
    let last := lastRegister m.processor.transferAll x
    (m.board.index + last ≤ m.memory.top →
      (∀ save cs restore,
        let saved := (perform fuel save).after m
        let later := afterCommands fuel saved cs
        let restored := (perform fuel restore).after later
        m.Executes save (.store x) → (∀ c ∈ cs, c.isInstruction = true) →
        (∀ p, m.board.index ≤ p → p ≤ m.board.index + last → saved.KeepsOff fuel p cs) →
        later.board.index = m.board.index → later.Executes restore (.load x) →
        (perform fuel save).answer m = .ok .done ∧ (perform fuel restore).answer later = .ok .done ∧
        (∀ y, y.val ≤ last → restored.board.reg y = m.board.reg y) ∧
        (∀ y, last < y.val → restored.board.reg y = later.board.reg y) ∧
        restored.board.index = m.board.index) ∧
      ∀ restore save,
        let loaded := (perform fuel restore).after m
        let stored := (perform fuel save).after loaded
        m.Executes restore (.load x) → loaded.Executes save (.store x) →
        (perform fuel restore).answer m = .ok .done ∧ (perform fuel save).answer loaded = .ok .done ∧
        stored.memory = m.memory) ∧
    (∀ other : Machine, other.board = m.board →
      m.processor.transferAll = true → other.processor.transferAll = false →
      ∀ c d, m.Executes c (.store x) ∧ other.Executes d (.store 0xF) ∨
          m.Executes c (.load x) ∧ other.Executes d (.load 0xF) →
        (perform fuel c).answer m = (perform fuel d).answer other ∧
        ((perform fuel c).after m).board = ((perform fuel d).after other).board) ∧
    (m.processor.transferAll = false → ∀ c, m.Executes c (.store x) ∨ m.Executes c (.load x) →
      let done := (perform fuel c).after m
      (∀ y, x < y → done.board.reg y = m.board.reg y) ∧
      ∀ p, m.board.index + x.val < p → done.memory.byteAt p = m.memory.byteAt p) := by
  intro last
  refine ⟨fun hfit => ⟨?_, ?_⟩, ?_, ?_⟩
  · intro save cs restore saved later restored hstore hcs hoff hindex hload
    obtain ⟨hanswer, hregs, hkept⟩ := reg_of_stored_of_loaded hstore hcs hoff hindex hload hfit
    refine ⟨(store_of_executes fuel hstore hfit).1, hanswer, fun y hy => ?_, fun y hy => ?_, hkept⟩
    · exact (hregs y).trans (if_pos (Nat.lt_succ_of_le hy))
    · exact (hregs y).trans (if_neg (by omega))
  · intro restore save loaded stored hload hstore
    exact ⟨(load_of_executes fuel hload hfit).1, memory_of_loaded_of_stored hload hstore hfit⟩
  · intro other hboard hall hall' c d hcd
    rcases hcd with ⟨hi, hj⟩ | ⟨hi, hj⟩
    · exact perform_agrees_of_execute fuel hboard hi hj (by rw [hall, hall', execute_store_all])
    · exact perform_agrees_of_execute fuel hboard hi hj (by rw [hall, hall', execute_load_all])
  · intro hall c hc
    have hspares := transfer_spares fuel hc
    rw [hall] at hspares
    exact hspares

/-- A machine that saves three registers in the last bytes of its memory, clears one and reloads them. -/
def reloading : Machine where
  board :=
    ⟨(Memory.blank 9).setBlock 0 [0xF2, 0x55, 0x60, 0x00, 0xF2, 0x65], ⟨Vector.replicate 16 7, 6, 0, 0⟩,
      .overlay, Screen.ofAnswers []⟩
  processor := Processor.blank false false 0
  journal := Journal.ofSetting Setting.off

/-- The cleared register comes back. -/
theorem block_transfers_invert_reloading :
    let saved := (perform 0 .step).after reloading
    let cleared := afterCommands 0 saved [.step]
    cleared.board.reg 0 = 0 ∧ (perform 0 .step).answer cleared = .ok .done ∧
      ((perform 0 .step).after cleared).board.reg 0 = 7 := by
  intro saved cleared
  have hstore : reloading.Executes .step (.store 2) :=
    ⟨by decide +kernel, decode?_eq_some_iff.mp (by decide +kernel)⟩
  have hset : saved.Executes .step (.set 0 0) :=
    ⟨by decide +kernel, decode?_eq_some_iff.mp (by decide +kernel)⟩
  have hload : cleared.Executes .step (.load 2) :=
    ⟨by decide +kernel, decode?_eq_some_iff.mp (by decide +kernel)⟩
  -- to clear a register stores nothing at all
  have hoff : ∀ p, saved.KeepsOff 0 p [.step] := fun p =>
    ⟨fun i hi => hi.unique hset ▸ not_false, trivial⟩
  obtain ⟨htransfers, -⟩ := block_transfers_invert reloading 2 0
  obtain ⟨hreload, -⟩ := htransfers (by decide +kernel)
  obtain ⟨-, hanswer, hregs, -⟩ := hreload .step [.step] .step hstore (by decide) (fun p _ _ => hoff p)
    (by decide +kernel) hload
  exact ⟨by decide +kernel, hanswer, (hregs 0 (Nat.zero_le _)).trans (by decide +kernel)⟩

end Machine

end Chip8

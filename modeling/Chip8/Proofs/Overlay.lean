import Chip8.Proofs.InstructionTable

/-!
# An overlay in the place of a list

A board whose return addresses are kept in a list, and the same board with an overlay,
the words of which hold that list. `Covers` is this relation: the pointers and the
screen are the same, and so is every byte that does not belong to the overlay.

* `Performs.overlaid` and `Refuses.overlaid`: an instruction that stays away from the
  bytes of the overlay has the same row on both boards, and `Covers` holds again of what
  it leaves.
* `Covers.savedAddresses`: the addresses that the overlay shows are those of the list.
-/

namespace Chip8

/-- The addresses of the bytes in which an overlay keeps up to `levels` return addresses. -/
def InOverlay (levels : Nat) (a : Int) : Prop := 2 ≤ a ∧ a ≤ 2 * levels + 1

theorem InOverlay.mono {n levels : Nat} {a : Int} (h : InOverlay n a) (hle : n ≤ levels) :
    InOverlay levels a :=
  ⟨h.1, by have := h.2; omega⟩

/-- A block of `n` bytes at `a` has no byte in common with the overlay. -/
def Apart (levels : Nat) (a : Int) (n : Nat) : Prop := ∀ c, InOverlay levels c → ¬(a ≤ c ∧ c < a + n)

theorem Apart.mono {levels n k : Nat} {a : Int} (h : Apart levels a n) (hle : k ≤ n) :
    Apart levels a k :=
  fun c hc hin => h c hc ⟨hin.1, by have := hin.2; omega⟩

/-- How many bytes from I on an instruction reads or writes. -/
def Instruction.span (all : Bool) : Instruction → Nat
  | .draw _ _ n => n
  | .decimal _ => 3
  | .store x | .load x => lastRegister all x + 1
  | _ => 0

/-! ### Words under a block -/

namespace Memory

variable {m m' : Memory} {a c : Int}

/-- A word that was written is found. -/
theorem wordAt_setBlock (w : Int) (h0 : 0 ≤ a) (h1 : a + 1 ≤ m.top) :
    (m.setBlock a [Word.high w, Word.low w]).wordAt a = w % 65536 := by
  have hbyte : ∀ c, (m.setBlock a [Word.high w, Word.low w]).byteAt c =
      if a ≤ c ∧ c < a + 2 then [Word.high w, Word.low w].getD (c - a).toNat 0 else m.byteAt c :=
    fun c => byteAt_setBlock _ h0 (by simp only [List.length_cons, List.length_nil]; omega)
  have hfirst : (a - a).toNat = 0 := by omega
  have hsecond : (a + 1 - a).toNat = 1 := by omega
  rw [wordAt, hbyte a, hbyte (a + 1), if_pos (by omega), if_pos (by omega), hfirst, hsecond]
  have := Word.toNat_high w
  have := Word.toNat_low w
  simp only [List.getD_cons_zero, List.getD_cons_succ]
  omega

/-! ### The words of an overlay -/

/-- The words at 2, 4 and so on are these return addresses, the most recent one last. -/
def Holds (m : Memory) : List Int → Prop
  | [] => True
  | a :: rest => m.wordAt (2 * (rest.length + 1)) = a ∧ m.Holds rest

theorem Holds.congr {saved : List Int} (h : m.Holds saved)
    (hbytes : ∀ c, InOverlay saved.length c → m'.byteAt c = m.byteAt c) : m'.Holds saved := by
  induction saved with
  | nil => exact trivial
  | cons a rest ih =>
    obtain ⟨hlast, hrest⟩ := h
    simp only [InOverlay, List.length_cons] at hbytes
    refine ⟨?_, ih hrest fun c hc => hbytes c ⟨hc.1, by have := hc.2; omega⟩⟩
    rw [← hlast, wordAt, wordAt, hbytes _ (by omega), hbytes _ (by omega)]

end Memory

namespace Board

/-- The board with these bytes and with an overlay for its call stack. -/
def overlaid (b : Board) (m : Memory) : Board := { b with memory := m, stack := .overlay }

/-- The board keeps `saved` in a list for `levels` addresses, and `m` is a memory in which an
overlay can keep them instead. -/
structure Covers (levels : Nat) (saved : List Int) (b : Board) (m : Memory) : Prop where
  /-- SP does not wrap. -/
  bound : levels ≤ 127
  stack : b.stack = .dedicated levels saved
  depth : saved.length ≤ levels
  /-- SP counts the addresses. -/
  sp : b.sp = 2 * saved.length
  top : b.memory.top = 4095
  /-- Both memories are of the same size. -/
  size : m.size = b.memory.size
  /-- They differ in the overlay at most. -/
  bytes : ∀ a, ¬InOverlay levels a → m.byteAt a = b.memory.byteAt a
  /-- The words of the overlay are the addresses. -/
  holds : m.Holds saved

variable {all : Bool} {levels : Nat} {saved : List Int} {b b' : Board} {m : Memory} {i : Instruction}
  {e : Fault}

namespace Covers

/-! ### What keeps the overlay in step -/

theorem top_eq (h : Covers levels saved b m) : m.top = b.memory.top := by
  rw [Memory.top_def, Memory.top_def, h.size]

/-- Registers and screen may change as long as SP does not. -/
theorem rewire (h : Covers levels saved b m) (r : Registers) (s : Screen)
    (hsp : r.sp = b.registers.sp) :
    Covers levels saved { b with registers := r, screen := s } m :=
  { h with
    sp := by
      rw [← h.sp]
      simp only [Board.sp, hsp] }

/-- A block apart from the overlay may be written to both memories as well. -/
theorem setBlock (h : Covers levels saved b m) {a : Int} {block : List UInt8}
    (hapart : Apart levels a block.length) (r : Registers) (hsp : r.sp = b.registers.sp) :
    Covers levels saved { b with memory := b.memory.setBlock a block, registers := r }
      (m.setBlock a block) :=
  { h.rewire r b.screen hsp with
    top := by rw [Memory.top_setBlock, h.top]
    size := by rw [Memory.size_setBlock, Memory.size_setBlock, h.size]
    bytes := fun c hc => Memory.byteAt_setBlock_congr block h.size (h.bytes c hc)
    holds := h.holds.congr fun c hc =>
      Memory.byteAt_setBlock_of_not_mem block (hapart c (hc.mono h.depth)) }

/-- Such a block is read from both memories alike. -/
theorem byteAt_add (h : Covers levels saved b m) {a : Int} {n k : Nat} (hapart : Apart levels a n)
    (hk : k < n) :
    m.byteAt (a + k) = b.memory.byteAt (a + k) :=
  h.bytes _ fun ha => hapart _ ha ⟨by omega, by omega⟩

/-- The registers that are loaded from such a block are the same. -/
theorem loaded_eq (h : Covers levels saved b m) {a : Int} {n : Nat} (hapart : Apart levels a n) :
    b.registers.loaded m a n = b.registers.loaded b.memory a n := by
  refine Registers.ext_get (fun y => ?_) (by simp) (by simp) (by simp)
  rw [Registers.get_loaded, Registers.get_loaded]
  split
  case isTrue hy => exact h.byteAt_add hapart hy
  case isFalse => rfl

/-- The next address goes above those that are kept. -/
theorem nextSP_eq (h : Covers levels saved b m) (hroom : saved.length < levels) :
    b.nextSP = 2 * (saved.length + 1) := by
  have := h.bound
  rw [nextSP, h.sp]
  omega

/-- The word for it is in the bank. -/
theorem nextSP_le_top (h : Covers levels saved b m) (hroom : saved.length < levels) :
    b.nextSP + 1 ≤ m.top := by
  have := h.bound
  rw [h.nextSP_eq hroom, h.top_eq, h.top]
  omega

/-- A call adds an address to the list and writes it to the next word of the overlay. -/
theorem push (h : Covers levels saved b m) (a p : Int) (h0 : 0 ≤ a) (hword : a < 65536)
    (hroom : saved.length < levels) :
    Covers levels (a :: saved)
      { b with
        stack := .dedicated levels (a :: saved)
        registers := (b.registers.setSP (b.sp + 2)).setPC p }
      (m.setBlock b.nextSP [Word.high a, Word.low a]) := by
  have hbound := h.bound
  have hsp := h.sp
  have hplace := h.nextSP_eq hroom
  refine ⟨hbound, rfl, hroom, ?_, h.top, ?_, ?_, ?_, ?_⟩
  · have := Word.toNat_low (b.sp + 2)
    simp only [Board.sp, Registers.sp_setPC, Registers.sp_setSP, List.length_cons] at *
    omega
  · rw [Memory.size_setBlock, h.size]
  · intro c hc
    rw [Memory.byteAt_setBlock_of_not_mem, h.bytes c hc]
    rw [hplace, List.length_cons, List.length_singleton]
    unfold InOverlay at hc
    omega
  · rw [← hplace, Memory.wordAt_setBlock a b.nextSP_nonneg (h.nextSP_le_top hroom)]
    omega
  · refine h.holds.congr fun c hc => Memory.byteAt_setBlock_of_not_mem _ ?_
    have := hc.2
    rw [hplace]
    omega

/-- A return takes an address from the list; the overlay keeps the word that it reads. -/
theorem pop {a : Int} (h : Covers levels (a :: saved) b m) (p : Int) :
    Covers levels saved
      { b with
        stack := .dedicated levels saved
        registers := (b.registers.setSP (b.sp - 2)).setPC p } m := by
  have hbound := h.bound
  have hdepth := h.depth
  have hsp := h.sp
  simp only [List.length_cons] at hdepth hsp
  refine ⟨hbound, rfl, by omega, ?_, h.top, h.size, h.bytes, h.holds.2⟩
  have := Word.toNat_low (b.sp - 2)
  simp only [Board.sp, Registers.sp_setPC, Registers.sp_setSP] at *
  omega

/-- The word at SP is the address that the list would give. -/
theorem wordAt_sp {a : Int} (h : Covers levels (a :: saved) b m) : m.wordAt b.sp = a := by
  rw [h.sp, ← h.holds.1, List.length_cons]
  rfl

end Covers

end Board

/-! ### The rows on both boards -/

open Board

variable {all : Bool} {levels : Nat} {saved : List Int} {b b' : Board} {m : Memory} {i : Instruction}
  {e : Fault}

/-- **An instruction that performs with a list performs alike with an overlay.** -/
theorem Performs.overlaid (h : Performs all b i b') (hcovers : Covers levels saved b m)
    (hfetched : b.pc + 1 ≤ b.memory.top) (hapart : Apart levels b.index (i.span all)) :
    ∃ saved' m', Covers levels saved' b' m' ∧ Performs all (b.overlaid m) i (b'.overlaid m') := by
  have htop := hcovers.top_eq
  have hlimit := hcovers.top
  cases h with
  | @retDedicated capacity a rest hstack =>
    rw [hcovers.stack] at hstack
    obtain ⟨rfl, rfl⟩ := CallStack.dedicated.inj hstack
    have hfit : b.sp + 1 ≤ m.top := by
      have := hcovers.bound
      have := hcovers.depth
      have := hcovers.sp
      omega
    have hrow : Performs all (b.overlaid m) .ret _ := .retOverlay rfl hfit
    have hword : (b.overlaid m).memory.wordAt (b.overlaid m).sp = a := hcovers.wordAt_sp
    rw [hword] at hrow
    exact ⟨rest, m, hcovers.pop a, hrow⟩
  | @callDedicated a capacity saved' hstack hroom =>
    rw [hcovers.stack] at hstack
    obtain ⟨rfl, rfl⟩ := CallStack.dedicated.inj hstack
    -- the call itself was fetched, so the address after it is a word
    have hpc := b.pc_nonneg
    have hcovers' := hcovers.push (b.pc + 2) a.val (by omega) (by omega) (by omega)
    exact ⟨_, _, hcovers', .callOverlay rfl (hcovers.nextSP_le_top (by omega))⟩
  | retOverlay hstack | callOverlay hstack =>
    rw [hcovers.stack] at hstack
    cases hstack
  | @draw x y n hat hfit =>
    rw [← htop] at hat hfit
    have hsprite : ((List.range n).map fun (k : Nat) => m.byteAt (b.index + k)) =
        (List.range n).map fun (k : Nat) => b.memory.byteAt (b.index + k) :=
      List.map_congr_left fun k hk => hcovers.byteAt_add hapart (List.mem_range.mp hk)
    refine ⟨saved, m, hcovers.rewire _ _ rfl, ?_⟩
    rw [← hsprite]
    exact .draw hat hfit
  | decimal hfit =>
    rw [← htop] at hfit
    exact ⟨saved, _, hcovers.setBlock hapart _ rfl, .decimal hfit⟩
  | @store x hfit =>
    rw [← htop] at hfit
    exact ⟨saved, _, hcovers.setBlock (hapart.mono (List.length_take_le _ _)) _ rfl, .store hfit⟩
  | @load x hfit =>
    rw [← htop] at hfit
    have hloaded : b.registers.loaded m b.index (lastRegister all x + 1) = _ :=
      hcovers.loaded_eq hapart
    refine ⟨saved, m, hcovers.rewire _ b.screen (by simp), ?_⟩
    rw [← hloaded]
    exact .load hfit
  -- the other rows are about registers and the screen, and SP is not among them
  | clear => exact ⟨saved, m, hcovers.rewire _ _ rfl, .clear⟩
  | jump => exact ⟨saved, m, hcovers.rewire _ b.screen rfl, .jump⟩
  | skipEq => exact ⟨saved, m, hcovers.rewire _ b.screen rfl, .skipEq⟩
  | skipNe => exact ⟨saved, m, hcovers.rewire _ b.screen rfl, .skipNe⟩
  | skipSame => exact ⟨saved, m, hcovers.rewire _ b.screen rfl, .skipSame⟩
  | set => exact ⟨saved, m, hcovers.rewire _ b.screen rfl, .set⟩
  | add => exact ⟨saved, m, hcovers.rewire _ b.screen rfl, .add⟩
  | move => exact ⟨saved, m, hcovers.rewire _ b.screen rfl, .move⟩
  | or => exact ⟨saved, m, hcovers.rewire _ b.screen rfl, .or⟩
  | index => exact ⟨saved, m, hcovers.rewire _ b.screen rfl, .index⟩

/-- **An instruction that fails with a list, but not at the list itself, fails alike with an
overlay.** -/
theorem Refuses.overlaid (h : Refuses all b i e b') (hcovers : Covers levels saved b m)
    (hunderflow : e ≠ .stackUnderflow) (hoverflow : e ≠ .stackOverflow)
    (hapart : Apart levels b.index (i.span all)) :
    ∃ saved' m', Covers levels saved' b' m' ∧ Refuses all (b.overlaid m) i e (b'.overlaid m') := by
  have htop := hcovers.top_eq
  cases h with
  | retDedicated => exact absurd rfl hunderflow
  | callDedicated => exact absurd rfl hoverflow
  | retOverlay hstack | callOverlay hstack =>
    rw [hcovers.stack] at hstack
    cases hstack
  | drawStart hend =>
    rw [← htop] at hend ⊢
    exact ⟨saved, m, hcovers, .drawStart hend⟩
  | drawEnd hat hpos hend =>
    rw [← htop] at hat hend ⊢
    exact ⟨saved, m, hcovers, .drawEnd hat hpos hend⟩
  | decimal hend =>
    rw [← htop] at hend ⊢
    exact ⟨saved, _, hcovers.setBlock (hapart.mono (List.length_take_le' _ _)) _ rfl, .decimal hend⟩
  | @store x hend =>
    have hcount : (m.top + 1 - b.index).toNat ≤ lastRegister all x + 1 := by omega
    rw [← htop] at hend ⊢
    have hblock := hapart.mono (Nat.le_trans (List.length_take_le _ b.registers.v.toList) hcount)
    exact ⟨saved, _, hcovers.setBlock hblock _ rfl, .store hend⟩
  | @load x hend =>
    have hcount : (m.top + 1 - b.index).toNat ≤ lastRegister all x + 1 := by omega
    have hloaded := hcovers.loaded_eq (hapart.mono hcount)
    rw [← htop] at hend ⊢
    refine ⟨saved, m, hcovers.rewire _ b.screen (by simp), ?_⟩
    rw [← hloaded]
    exact .load hend

/-! ### What the overlay shows -/

namespace Board

/-- Reads the word of an overlay that lies above `k` others. -/
def readLevel (k : Nat) : Exec Board Int := do
  let address ← onMemory (Memory.readWord (2 * (k + 1) : Nat))
  return (address.toNat : Int)

theorem readLevel_of_le {k : Nat} (h : 2 * (k : Int) + 3 ≤ b.memory.top) :
    readLevel k b = .ok (b.memory.wordAt (2 * (k + 1))) b := by
  have hplace : ((2 * (k + 1) : Nat) : Int) = 2 * (k + 1) := by omega
  rw [readLevel, Exec.bind_apply, onMemory_apply, hplace, Memory.readWord_of_le (by omega) (by omega)]
  simp only [Exec.pure_apply, Memory.toNat_join_byteAt]

/-- Reading the words from the lowest one up gives the addresses, oldest first. -/
theorem mapM_readLevel {saved : List Int} (h : b.memory.Holds saved)
    (hfit : 2 * (saved.length : Int) + 1 ≤ b.memory.top) :
    (List.range saved.length).mapM readLevel b = .ok saved.reverse b := by
  induction saved with
  | nil => rfl
  | cons a rest ih =>
    obtain ⟨hlast, hrest⟩ := h
    simp only [List.length_cons, Int.natCast_add, Int.natCast_one] at hfit
    have hword := readLevel_of_le (b := b) (k := rest.length) (by omega)
    rw [hlast] at hword
    rw [List.length_cons, List.range_succ, List.mapM_append, Exec.bind_eq_ok (ih hrest (by omega)),
      List.mapM_cons, List.mapM_nil, Exec.bind_apply, Exec.bind_eq_ok hword]
    simp

/-- An overlay is read level by level, so many of them as SP says. -/
theorem savedAddresses_overlay (h : b.stack = .overlay) :
    savedAddresses b = (List.range (b.registers.sp.toNat / 2)).mapM readLevel b := by
  simp only [savedAddresses, Exec.bind_apply, Exec.get_apply, h]
  rfl

/-- **The overlay shows the addresses of the list, oldest first.** -/
theorem Covers.savedAddresses (h : Covers levels saved b m) :
    Board.savedAddresses (b.overlaid m) = .ok saved.reverse (b.overlaid m) := by
  have hbound := h.bound
  have hdepth := h.depth
  have hcount : b.registers.sp.toNat / 2 = saved.length := by
    have hsp : (b.registers.sp.toNat : Int) = 2 * saved.length := h.sp
    omega
  have hfit : 2 * (saved.length : Int) + 1 ≤ (b.overlaid m).memory.top := by
    show _ ≤ m.top
    rw [h.top_eq, h.top]
    omega
  rw [savedAddresses_overlay rfl]
  simp only [overlaid, hcount]
  exact mapM_readLevel (b := b.overlaid m) h.holds hfit

end Board

end Chip8

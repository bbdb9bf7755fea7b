import Chip8.Board.Lemmas
import Chip8.Execution

/-!
# Transfers byte by byte

Storing digits or registers writes one byte after the other, and loading registers reads
them in the same way. Each byte is checked on its own, so a transfer that reaches past
the end of the bank stops there and leaves what it has done. The lemmas say what that is:
of a block at address `a` exactly the `top + 1 - a` bytes that are in the bank.

* `writeEach_of_le` and `writeEach_of_gt`: a block of bytes to memory.
* `loadEach_of_le` and `loadEach_of_gt`: the first registers from memory.
-/

namespace Chip8

/-! ### To memory -/

namespace Memory

variable {m : Memory} {a : Int}

theorem mem_of_nonneg (h0 : 0 ≤ a) : a ∈ m ↔ a ≤ m.top := by
  rw [mem_iff]
  omega

/-- A block that fits is written as a whole. -/
theorem writeEach_of_le (bs : List Int) (h0 : 0 ≤ a) (h : a + bs.length - 1 ≤ m.top) :
    writeEach a bs m = .ok () (m.setBlock a (bs.map Word.low)) := by
  induction bs generalizing m a with
  | nil => rfl
  | cons b rest ih =>
    simp only [List.length_cons, Int.natCast_add, Int.natCast_one] at h
    have ha : a ∈ m := (mem_of_nonneg h0).mpr (by omega)
    have hw : write a b m = .ok () (m.setByte a (Word.low b)) := by rw [write_eq, if_pos ha]
    rw [writeEach, Exec.bind_eq_ok hw, ih (by omega) (by rw [top_setByte]; omega)]
    rfl

/-- Of a block that does not fit, the bytes up to the end of the bank are written. -/
theorem writeEach_of_gt (bs : List Int) (h0 : 0 ≤ a) (hbs : bs ≠ []) (h : m.top < a + bs.length - 1) :
    writeEach a bs m = .error (.outOfBounds (max a (m.top + 1)) m.top)
      (m.setBlock a ((bs.map Word.low).take (m.top + 1 - a).toNat)) := by
  induction bs generalizing m a with
  | nil => exact absurd rfl hbs
  | cons b rest ih =>
    simp only [List.length_cons, Int.natCast_add, Int.natCast_one] at h
    by_cases ha : a ≤ m.top
    · have hw : write a b m = .ok () (m.setByte a (Word.low b)) := by
        rw [write_eq, if_pos ((mem_of_nonneg h0).mpr ha)]
      have hrest : rest ≠ [] := by
        rintro rfl
        simp only [List.length_nil, Int.natCast_zero] at h
        omega
      have hfit : (m.top + 1 - a).toNat = (m.top + 1 - (a + 1)).toNat + 1 := by omega
      have hfirst : max a (m.top + 1) = max (a + 1) (m.top + 1) := by omega
      rw [writeEach, Exec.bind_eq_ok hw, ih (by omega) hrest (by rw [top_setByte]; omega), top_setByte,
        hfit, hfirst]
      rfl
    · have hw : write a b m = .error (.outOfBounds a m.top) m := by
        rw [write_eq, if_neg (mt (mem_of_nonneg h0).mp ha)]
      have hfit : (m.top + 1 - a).toNat = 0 := by omega
      have hfirst : max a (m.top + 1) = a := by omega
      rw [writeEach, Exec.bind_eq_error hw, hfit, hfirst]
      rfl

/-! ### Words -/

/-- The word at an address, the high byte first. -/
def wordAt (m : Memory) (a : Int) : Int := (m.byteAt a).toNat * 256 + (m.byteAt (a + 1)).toNat

theorem readWord_of_le (h0 : 0 ≤ a) (h : a + 1 ≤ m.top) :
    readWord a m = .ok (Word.join (m.byteAt a) (m.byteAt (a + 1))) m := by
  have ha : a ∈ m := (mem_of_nonneg h0).mpr (by omega)
  have ha' : a + 1 ∈ m := (mem_of_nonneg (by omega)).mpr h
  rw [readWord_eq, if_neg (not_not_intro ha), if_neg (not_not_intro ha')]

theorem readWord_of_gt (h0 : 0 ≤ a) (h : m.top < a + 1) :
    readWord a m = .error (.outOfBounds (max a (m.top + 1)) m.top) m := by
  rw [readWord_eq]
  by_cases ha : a ∈ m
  · have ha' : a + 1 ∉ m := mt (mem_of_nonneg (by omega)).mp (by omega)
    have hfirst : max a (m.top + 1) = a + 1 := by
      have := ha.2
      omega
    rw [if_neg (not_not_intro ha), if_pos ha', hfirst]
  · have hfirst : max a (m.top + 1) = a := by
      rw [mem_of_nonneg h0] at ha
      omega
    rw [if_pos ha, hfirst]

theorem writeWord_of_le (w : Int) (h0 : 0 ≤ a) (h : a + 1 ≤ m.top) :
    writeWord a w m = .ok () (m.setBlock a [Word.high w, Word.low w]) := by
  have ha : a ∈ m := (mem_of_nonneg h0).mpr (by omega)
  have ha' : a + 1 ∈ m := (mem_of_nonneg (by omega)).mpr h
  rw [writeWord_eq, if_neg (not_not_intro ha'), if_neg (not_not_intro ha)]
  rfl

theorem writeWord_of_gt (w : Int) (h0 : 0 ≤ a) (h : m.top < a + 1) :
    writeWord a w m = .error (.outOfBounds (a + 1) m.top) m := by
  have ha' : a + 1 ∉ m := mt (mem_of_nonneg (by omega)).mp (by omega)
  rw [writeWord_eq, if_pos ha']

theorem toNat_join_byteAt : ((Word.join (m.byteAt a) (m.byteAt (a + 1))).toNat : Int) = m.wordAt a := by
  rw [Word.toNat_join, wordAt]
  omega

end Memory

/-! ### To registers -/

namespace Registers

/-- The registers below number `n` take the bytes at `a` and up; the others keep theirs. -/
def loaded (r : Registers) (m : Memory) (a : Int) (n : Nat) : Registers :=
  { r with v := Vector.ofFn fun y : Nibble => if y.val < n then m.byteAt (a + y.val) else r.get y }

theorem ext_get {r r' : Registers} (hv : ∀ y, r.get y = r'.get y) (hi : r.i = r'.i) (hpc : r.pc = r'.pc)
    (hsp : r.sp = r'.sp) : r = r' := by
  have hv' : r.v = r'.v := Vector.ext fun y hy => hv ⟨y, hy⟩
  cases r
  cases r'
  simp_all

section

variable (r : Registers) (m : Memory) (a : Int) (n : Nat)

@[simp] theorem i_loaded : (r.loaded m a n).i = r.i := by simp only [loaded]

@[simp] theorem pc_loaded : (r.loaded m a n).pc = r.pc := by simp only [loaded]

@[simp] theorem sp_loaded : (r.loaded m a n).sp = r.sp := by simp only [loaded]

@[simp] theorem get_loaded (y : Nibble) :
    (r.loaded m a n).get y = if y.val < n then m.byteAt (a + y.val) else r.get y := by
  simp [loaded, get]

theorem loaded_zero : r.loaded m a 0 = r :=
  ext_get (fun y => by simp) (by simp) (by simp) (by simp)

/-- One more register is loaded by setting it. -/
theorem set_loaded (x : Nibble) :
    (r.loaded m a x).set x (m.byteAt (a + x.val)) = r.loaded m a (x.val + 1) := by
  refine ext_get (fun y => ?_) (by simp) (by simp) (by simp)
  rw [get_set, get_loaded, get_loaded]
  by_cases hyx : y = x
  · subst hyx
    simp
  · have : y.val ≠ x.val := fun h => hyx (Fin.ext h)
    by_cases hlt : y.val < x.val
    · rw [if_neg hyx, if_pos hlt, if_pos (by omega)]
    · rw [if_neg hyx, if_neg hlt, if_neg (by omega)]

end

end Registers

namespace Board

variable {b : Board} {a : Int}

/-- The registers of a list are loaded in order, whatever comes after them. -/
theorem loadEach_append (xs ys : List Nibble) :
    loadEach a (xs ++ ys) b = (loadEach a xs >>= fun _ => loadEach (a + xs.length) ys) b := by
  induction xs generalizing a b with
  | nil => simp [loadEach, Exec.bind_apply]
  | cons x rest ih =>
    have hnext : a + 1 + (rest.length : Int) = a + ((rest.length + 1 : Nat) : Int) := by omega
    simp only [List.cons_append, loadEach, Exec.bind_apply, List.length_cons]
    cases onMemory (Memory.read a) b with
    | error e b' => rfl
    | ok byte b' =>
      simp only [move, Exec.modify_apply]
      rw [ih, Exec.bind_apply, hnext]

theorem loadEach_one (x : Nibble) :
    loadEach a [x] b =
      if a ∈ b.memory then .ok () { b with registers := b.registers.set x (b.memory.byteAt a) }
      else .error (.outOfBounds a b.memory.top) b := by
  by_cases h : a ∈ b.memory <;>
    simp [loadEach, Exec.bind_apply, onMemory_apply, Memory.read_eq, h, move]

/-- After the first registers comes the next one. -/
theorem loadEach_take_succ {n : Nat} (hn : n < 16) :
    loadEach a ((List.finRange 16).take (n + 1)) b =
      (loadEach a ((List.finRange 16).take n) >>= fun _ => loadEach (a + n) [⟨n, hn⟩]) b := by
  have htake : (List.finRange 16).take (n + 1) = (List.finRange 16).take n ++ [⟨n, hn⟩] := by
    rw [List.take_succ_eq_append_getElem (by simpa using hn)]
    simp
  have hlength : ((List.finRange 16).take n).length = n := by
    rw [List.length_take, List.length_finRange]
    omega
  rw [htake, loadEach_append, hlength]

/-- The first registers are loaded if the bytes for all of them are in the bank. -/
theorem loadEach_of_le {n : Nat} (hn : n ≤ 16) (h0 : 0 ≤ a) (h : n = 0 ∨ a + n - 1 ≤ b.memory.top) :
    loadEach a ((List.finRange 16).take n) b =
      .ok () { b with registers := b.registers.loaded b.memory a n } := by
  induction n with
  | zero =>
    rw [Registers.loaded_zero]
    rfl
  | succ n ih =>
    have ha : a + n ∈ b.memory := (Memory.mem_of_nonneg (by omega)).mpr (by omega)
    rw [loadEach_take_succ hn, Exec.bind_eq_ok (ih (by omega) (by omega)), loadEach_one, if_pos ha,
      Registers.set_loaded b.registers b.memory a ⟨n, hn⟩]

/-- Otherwise those registers are loaded whose bytes are in the bank. -/
theorem loadEach_of_gt {n : Nat} (hn : n ≤ 16) (hpos : 0 < n) (h0 : 0 ≤ a) (h : b.memory.top < a + n - 1) :
    loadEach a ((List.finRange 16).take n) b =
      .error (.outOfBounds (max a (b.memory.top + 1)) b.memory.top)
        { b with registers := b.registers.loaded b.memory a (b.memory.top + 1 - a).toNat } := by
  induction n with
  | zero => exact absurd hpos (Nat.lt_irrefl 0)
  | succ n ih =>
    rw [loadEach_take_succ hn]
    by_cases hlast : n = 0 ∨ a + n - 1 ≤ b.memory.top
    · -- register `n` is the first one that cannot be loaded
      have ha : a + n ∉ b.memory := mt (Memory.mem_of_nonneg (by omega)).mp (by omega)
      have hfirst : max a (b.memory.top + 1) = a + n := by omega
      have hcount : (b.memory.top + 1 - a).toNat = n := by omega
      rw [Exec.bind_eq_ok (loadEach_of_le (by omega) h0 hlast), loadEach_one, if_neg ha, hfirst, hcount]
    · exact Exec.bind_eq_error (ih (by omega) (by omega) (by omega))

end Board

/-! ### What is transferred -/

/-- The digits of a byte are bytes themselves. -/
theorem map_low_digits (v : UInt8) :
    (Digits.ofInt v.toNat).toList.map Word.low = [v / 100, v / 10 % 10, v % 10] := by
  have hundreds : Word.low (v.toNat / 100 : Int) = v / 100 := by
    rw [← UInt8.toNat_inj]
    have := Word.toNat_low (v.toNat / 100 : Int)
    have := v.toNat_lt
    simp
    omega
  have tens : Word.low (v.toNat / 10 % 10 : Int) = v / 10 % 10 := by
    rw [← UInt8.toNat_inj]
    have := Word.toNat_low (v.toNat / 10 % 10 : Int)
    have := v.toNat_lt
    simp
    omega
  have units : Word.low (v.toNat % 10 : Int) = v % 10 := by
    rw [← UInt8.toNat_inj]
    have := Word.toNat_low (v.toNat % 10 : Int)
    have := v.toNat_lt
    simp
    omega
  simp only [Digits.toList, Digits.ofInt, List.map_cons, List.map_nil, hundreds, tens, units]

/-- The last register that a block transfer takes. -/
def lastRegister (transferAll : Bool) (x : Nibble) : Nat := if transferAll then 15 else x

theorem lastRegister_lt (transferAll : Bool) (x : Nibble) : lastRegister transferAll x < 16 := by
  unfold lastRegister
  split <;> omega

theorem blockRegisters_eq (transferAll : Bool) (x : Nibble) :
    blockRegisters transferAll x = (List.finRange 16).take (lastRegister transferAll x + 1) := by
  cases transferAll <;> rfl

/-- The values of the registers of a transfer are the first ones of all. -/
theorem map_get_blockRegisters (transferAll : Bool) (x : Nibble) (r : Registers) :
    (blockRegisters transferAll x).map r.get = r.v.toList.take (lastRegister transferAll x + 1) := by
  have hall : (List.finRange 16).map r.get = r.v.toList := by
    apply List.ext_getElem
    · simp
    · intro k _ _
      simp [Registers.get]
  rw [blockRegisters_eq, List.map_take, hall]

theorem length_take_registers {n : Nat} (r : Registers) (hn : n ≤ 16) : (r.v.toList.take n).length = n := by
  rw [List.length_take, Vector.length_toList]
  omega

theorem length_blockRegisters (all : Bool) (x : Nibble) :
    (blockRegisters all x).length = lastRegister all x + 1 := by
  have := lastRegister_lt all x
  rw [blockRegisters_eq, List.length_take, List.length_finRange]
  omega

end Chip8

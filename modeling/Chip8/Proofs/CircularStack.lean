import Chip8.Proofs.CrashReport
import Chip8.Proofs.StackHistory

/-!
# An overlay as a ring

An overlay has no capacity of its own. SP is a byte that moves by two, so the 129th address that is
pushed goes where the first one is. Up to there an overlay is a stack like any other: the 128 levels
from SP on do not overlap, whether SP is even or odd, and all of them are in a bank of 257 bytes.
Only the low sixteen bits of an address are kept.

A reader of the whole call stack does not know where the ring began, and finds the words at 2, 4 and
so on up to SP. If SP began at zero these are the addresses that are kept, until the ring is
full: then SP is zero again, and nothing is found.

* `slot_apart`: the levels of a ring do not overlap.
* `Ring.push` and `Ring.pop`: what one use does, in a ring that can take it.
* `ring_uses`: what a sequence of uses does.
* `Ring.forget` and `Ring.reread`: a full ring has two more readings, without its oldest address
  before the 129th push and with the latest one once more after 128 pops.
* `overlay_is_circular_lifo`: pushes, pops and the reader together.
-/

namespace Chip8

/-! ### Levels -/

/-- Where level `k` of an overlay lies that began with SP at `base`. -/
def slot (base k : Int) : Int := (base + 2 * k) % 256

/-- The byte at `c` belongs to level `k`. -/
def InSlot (base k c : Int) : Prop := slot base k ≤ c ∧ c < slot base k + 2

theorem slot_bounds (base k : Int) : 0 ≤ slot base k ∧ slot base k ≤ 255 := by
  unfold slot
  omega

/-- Two of 128 levels in a row have no byte in common. -/
theorem slot_apart (base : Int) {j k : Int} (hbelow : j < k) (hnear : k < j + 128) :
    slot base j + 2 ≤ slot base k ∨ slot base k + 2 ≤ slot base j := by
  unfold slot
  omega

/-- In a ring that began one level higher the same levels have numbers one lower. -/
theorem slot_add_two (base k : Int) : slot (base + 2) k = slot base (k + 1) := by
  unfold slot
  omega

/-- The 129th level is the first one again. -/
theorem slot_wraps (base : Int) : slot base 129 = slot base 1 := by
  unfold slot
  omega

namespace Memory

variable {m : Memory} {base k : Int} {saved : List Int}

/-- The levels from the first one on hold the low sixteen bits of these addresses, the most
recent one last. -/
def HoldsRing (m : Memory) (base : Int) : List Int → Prop
  | [] => True
  | a :: rest => m.wordAt (slot base (rest.length + 1)) = a % 65536 ∧ m.HoldsRing base rest

/-- A level above them may be written. -/
theorem HoldsRing.setBlock (h : m.HoldsRing base saved) (habove : saved.length < k) (hroom : k ≤ 128)
    (high low : UInt8) : (m.setBlock (slot base k) [high, low]).HoldsRing base saved := by
  induction saved with
  | nil => exact trivial
  | cons a rest ih =>
    obtain ⟨hlast, hrest⟩ := h
    rw [List.length_cons] at habove
    refine ⟨?_, ih hrest (by omega)⟩
    have hapart := slot_apart base (show (rest.length : Int) + 1 < k by omega) (by omega)
    rw [← hlast, wordAt, wordAt, byteAt_setBlock_of_not_mem, byteAt_setBlock_of_not_mem]
    · rw [List.length_cons, List.length_singleton]
      omega
    · rw [List.length_cons, List.length_singleton]
      omega

/-- Without its oldest address a ring begins one level higher. -/
theorem HoldsRing.forget {oldest : Int} (h : m.HoldsRing base (saved ++ [oldest])) :
    m.wordAt (slot base 1) = oldest % 65536 ∧ m.HoldsRing (base + 2) saved := by
  induction saved with
  | nil => exact ⟨h.1, trivial⟩
  | cons a rest ih =>
    obtain ⟨hlast, hrest⟩ : m.wordAt (slot base ((rest ++ [oldest]).length + 1)) = a % 65536 ∧ _ := h
    obtain ⟨hfirst, hhigher⟩ := ih hrest
    rw [List.length_append, List.length_singleton] at hlast
    exact ⟨hfirst, by rw [slot_add_two]; exact hlast, hhigher⟩

/-- If the ring began at zero and has not wrapped, its levels are the words from 2 on. -/
theorem HoldsRing.words_eq (h : m.HoldsRing 0 saved) (hlow : saved.length ≤ 127) :
    m.words saved.length = saved.reverse.map (· % 65536) := by
  induction saved with
  | nil => rfl
  | cons a rest ih =>
    obtain ⟨hlast, hrest⟩ := h
    rw [List.length_cons] at hlow
    have hplace : slot 0 (rest.length + 1) = 2 * (rest.length + 1) := by
      unfold slot
      omega
    rw [hplace] at hlast
    rw [List.length_cons, words_succ, ih hrest (by omega), hlast, List.reverse_cons, List.map_append]
    rfl

end Memory

/-! ### Pushing and popping -/

/-- The board keeps these addresses in an overlay that began with SP at `base`. -/
structure Ring (base : Int) (saved : List Int) (b : Board) : Prop where
  stack : b.stack = .overlay
  size : 257 ≤ b.memory.size
  sp : b.sp = slot base saved.length
  holds : b.memory.HoldsRing base saved

namespace Ring

variable {base a : Int} {saved : List Int} {b : Board}

theorem slot_le_top (h : Ring base saved b) (k : Int) : slot base k + 1 ≤ b.memory.top := by
  have hslot := slot_bounds base k
  have hsize := h.size
  rw [Memory.top_def]
  omega

theorem nextSP_eq (h : Ring base saved b) : b.nextSP = slot base (saved.length + 1) := by
  rw [Board.nextSP, h.sp]
  unfold slot
  omega

/-- An overlay of any bank that is large enough is a ring in which nothing is kept yet. -/
theorem empty (hstack : b.stack = .overlay) (hsize : 257 ≤ b.memory.size) : Ring b.sp [] b := by
  refine ⟨hstack, hsize, ?_, trivial⟩
  have := b.registers.sp.toNat_lt
  simp only [Board.sp, slot, List.length_nil]
  omega

/-- **A push finds room up to the 128th level**, and it changes no byte outside of this level. -/
theorem push (h : Ring base saved b) (hroom : saved.length < 128) (a : Int) :
    ∃ b', Board.push a b = .ok () b' ∧ Ring base (a :: saved) b' ∧
      b'.memory.size = b.memory.size ∧
      ∀ c, ¬InSlot base (saved.length + 1) c → b'.memory.byteAt c = b.memory.byteAt c := by
  have hplace := h.nextSP_eq
  have hfit := h.slot_le_top (saved.length + 1)
  have hstart := (slot_bounds base (saved.length + 1)).1
  have hwrite := Memory.writeWord_of_le a hstart hfit
  have hword := Memory.wordAt_setBlock a hstart hfit
  refine ⟨{ b with
      registers := b.raised
      memory := b.memory.setBlock (slot base (saved.length + 1)) [Word.high a, Word.low a] },
    ?_, ⟨h.stack, ?_, ?_, hword, ?_⟩, Memory.size_setBlock _, fun c hc => ?_⟩
  · rw [Board.push_overlay h.stack, Board.sp_raised, hplace, hwrite]
  · rw [Memory.size_setBlock]
    exact h.size
  · exact (Board.sp_raised b).trans hplace
  · exact h.holds.setBlock (by omega) (by omega) _ _
  · exact Memory.byteAt_setBlock_of_not_mem _ hc

/-- **A pop gives back the low sixteen bits of the most recent address.** -/
theorem pop (h : Ring base (a :: saved) b) :
    ∃ b', Board.pop b = .ok (a % 65536) b' ∧ Ring base saved b' ∧ b'.memory = b.memory := by
  have hsp : b.sp = slot base (saved.length + 1) := h.sp
  obtain ⟨hlast, hrest⟩ := h.holds
  have hfit := h.slot_le_top (saved.length + 1)
  rw [← hsp] at hlast hfit
  have hread := Memory.readWord_of_le b.sp_nonneg hfit
  refine ⟨{ b with registers := b.lowered }, ?_, ⟨h.stack, h.size, ?_, hrest⟩, rfl⟩
  · rw [Board.pop_overlay h.stack]
    simp only [Board.sp] at hread hlast ⊢
    rw [hread]
    simp only [Memory.toNat_join_byteAt, hlast]
  · refine (Word.toNat_low (b.sp - 2)).trans ?_
    rw [hsp]
    unfold slot
    omega

/-- **A full ring has room for one more address once its oldest one is forgotten.** The level
that comes next is the one that this was on. -/
theorem forget {oldest : Int} (h : Ring base (saved ++ [oldest]) b) : Ring (base + 2) saved b := by
  refine ⟨h.stack, h.size, h.sp.trans ?_, h.holds.forget.2⟩
  rw [slot_add_two, List.length_append, List.length_singleton]
  rfl

/-- **Where a full ring has been emptied, the most recent address is still at SP.** -/
theorem reread {rest : List Int} {b' : Board} (hfull : Ring base (a :: rest) b)
    (hcount : rest.length = 127) (hempty : Ring base [] b') (hmemory : b'.memory = b.memory) :
    Ring (base - 2) [a] b' := by
  have hwrapped : slot (base - 2) 1 = slot base (rest.length + 1) := by
    rw [hcount]
    unfold slot
    omega
  refine ⟨hempty.stack, hempty.size, hempty.sp.trans ?_, ?_, trivial⟩
  · simp only [slot, List.length_cons, List.length_nil]
    omega
  · show b'.memory.wordAt (slot (base - 2) 1) = a % 65536
    rw [hwrapped, hmemory]
    exact hfull.holds.1

/-- A reader who begins at 2 reads as many levels as SP tells of a ring that began at zero. -/
theorem savedAddresses_eq (h : Ring 0 saved b) :
    Board.savedAddresses b = .ok (b.memory.words (saved.length % 128)) b := by
  have hlevels : b.registers.sp.toNat / 2 = saved.length % 128 := by
    have hsp := h.sp
    simp only [Board.sp, slot] at hsp
    omega
  have hsize := h.size
  rw [Board.savedAddresses_of_readable (Board.stackReadable_of_le (by omega)), Board.stackView, h.stack,
    ← hlevels]

/-- These are the addresses that are kept, if the ring is not full. -/
theorem savedAddresses_of_le (h : Ring 0 saved b) (hlow : saved.length ≤ 127) :
    Board.savedAddresses b = .ok (saved.reverse.map (· % 65536)) b := by
  rw [h.savedAddresses_eq, Nat.mod_eq_of_lt (Nat.lt_succ_of_le hlow), h.holds.words_eq hlow]

/-- Where it is full, SP tells of none. -/
theorem savedAddresses_of_full (h : Ring 0 saved b) (hcount : saved.length = 128) :
    Board.savedAddresses b = .ok [] b := by
  rw [h.savedAddresses_eq, hcount]
  rfl

end Ring

/-! ### A sequence of uses -/

namespace StackUse

/-- By how much a use changes the number of addresses that are kept. -/
def change : StackUse → Int
  | .push _ => 1
  | .pop => -1

/-- How many more pushes than pops there are. -/
def balance : List StackUse → Int
  | [] => 0
  | u :: uses => u.change + balance uses

theorem balance_nil : balance [] = 0 := rfl

theorem balance_cons (u : StackUse) (uses : List StackUse) :
    balance (u :: uses) = u.change + balance uses := rfl

theorem balance_append (uses next : List StackUse) :
    balance (uses ++ next) = balance uses + balance next := by
  induction uses with
  | nil => rw [List.nil_append, balance_nil, Int.zero_add]
  | cons u uses ih => rw [List.cons_append, balance_cons, balance_cons, ih, Int.add_assoc]

/-- A ring that keeps `n` addresses never has to keep fewer than none or more than 128. -/
def Fits (n : Int) (uses : List StackUse) : Prop :=
  ∀ part, part <+: uses → 0 ≤ n + balance part ∧ n + balance part ≤ 128

variable {n : Int} {u : StackUse} {uses next : List StackUse}

theorem Fits.first (h : Fits n (uses ++ next)) : Fits n uses :=
  fun part hpart => h part (hpart.trans (List.prefix_append uses next))

theorem Fits.rest (h : Fits n (uses ++ next)) : Fits (n + balance uses) next := by
  intro part hpart
  have hwhole := h (uses ++ part) ((List.prefix_append_right_inj uses).mpr hpart)
  rwa [balance_append, ← Int.add_assoc] at hwhole

theorem Fits.bounds (h : Fits n uses) : 0 ≤ n ∧ n ≤ 128 := by
  have hnone := h [] List.nil_prefix
  rwa [balance_nil, Int.add_zero] at hnone

theorem fits_nil : Fits n [] ↔ 0 ≤ n ∧ n ≤ 128 := by
  refine ⟨Fits.bounds, fun hbounds part hpart => ?_⟩
  rwa [List.prefix_nil.mp hpart, balance_nil, Int.add_zero]

/-- A sequence can be judged from its first use on. -/
theorem fits_cons : Fits n (u :: uses) ↔ (0 ≤ n ∧ n ≤ 128) ∧ Fits (n + u.change) uses := by
  constructor
  · intro h
    refine ⟨h.bounds, fun part hpart => ?_⟩
    have hwhole := h (u :: part) (List.cons_prefix_cons.mpr ⟨rfl, hpart⟩)
    rwa [balance_cons, ← Int.add_assoc] at hwhole
  · rintro ⟨hbounds, hrest⟩ part hpart
    cases part with
    | nil => rwa [balance_nil, Int.add_zero]
    | cons v part =>
      obtain ⟨rfl, hrestpart⟩ := List.cons_prefix_cons.mp hpart
      rw [balance_cons, ← Int.add_assoc]
      exact hrest part hrestpart

/-- The command for a use. -/
def command : StackUse → Machine.Command
  | .push a => .push a
  | .pop => .pop

end StackUse

namespace Machine

open StackUse

variable (fuel : Nat) {m : Machine} {base a : Int} {saved : List Int}

/-- The command that pushes is done if there is room. -/
theorem ring_push (h : Ring base saved m.board) (hroom : saved.length < 128) (a : Int) :
    ∃ s, perform fuel (.push a) m = .ok .done s ∧ Ring base (a :: saved) s.board ∧
      s.memory.size = m.memory.size ∧
      ∀ c, ¬InSlot base (saved.length + 1) c → s.memory.byteAt c = m.memory.byteAt c := by
  obtain ⟨b, hpush, hring, hsize, hbytes⟩ := h.push hroom a
  exact ⟨{ m with board := b }, by rw [perform_push, hpush], hring, hsize, hbytes⟩

/-- The command that pops gives what the ring gives. -/
theorem ring_pop (h : Ring base (a :: saved) m.board) :
    ∃ s, perform fuel .pop m = .ok (.number (a % 65536)) s ∧ Ring base saved s.board ∧
      s.memory = m.memory := by
  obtain ⟨b, hpop, hring, hmemory⟩ := h.pop
  exact ⟨{ m with board := b }, by rw [perform_pop, hpop], hring, hmemory⟩

/-- One use of a ring that can take it. -/
theorem ring_use (h : Ring base saved m.board) (u : StackUse) (hlow : 0 ≤ saved.length + u.change)
    (hhigh : saved.length + u.change ≤ 128) :
    let s := (perform fuel u.command).after m
    Ring base (u.apply saved) s.board ∧
    ((u.apply saved).length : Int) = saved.length + u.change ∧
    s.memory.size = m.memory.size ∧
    ∀ c, (∀ a, u = .push a → ¬InSlot base (saved.length + 1) c) →
      s.memory.byteAt c = m.memory.byteAt c := by
  cases u with
  | push a =>
    rw [change] at hhigh
    obtain ⟨s, hends, hring, hsize, hbytes⟩ := ring_push fuel h (by omega) a
    rw [command, Exec.after_of_ok hends]
    exact ⟨hring, rfl, hsize, fun c hc => hbytes c (hc a rfl)⟩
  | pop =>
    rw [change] at hlow
    cases saved with
    | nil =>
      rw [List.length_nil] at hlow
      omega
    | cons a rest =>
      obtain ⟨s, hends, hring, hmemory⟩ := ring_pop fuel h
      rw [command, Exec.after_of_ok hends]
      refine ⟨hring, ?_, by rw [hmemory], fun c _ => by rw [hmemory]⟩
      rw [apply, change, List.tail_cons, List.length_cons]
      omega

/-- **A sequence of uses that fit.** The ring keeps the unmatched addresses, and no byte has
changed but those of the levels that were pushed to. -/
theorem ring_uses (h : Ring base saved m.board) {uses : List StackUse} (hfits : Fits saved.length uses) :
    let s := afterCommands fuel m (uses.map command)
    Ring base (unmatched saved uses) s.board ∧
    ((unmatched saved uses).length : Int) = saved.length + balance uses ∧
    s.memory.size = m.memory.size ∧
    ∀ c, (∀ before a next, uses = before ++ .push a :: next →
        ¬InSlot base (saved.length + balance before + 1) c) →
      s.memory.byteAt c = m.memory.byteAt c := by
  induction uses generalizing m saved with
  | nil => exact ⟨h, (Int.add_zero _).symm, rfl, fun _ _ => rfl⟩
  | cons u uses ih =>
    -- the first use leaves a ring that the other uses fit
    have hrest := (fits_cons.mp hfits).2
    obtain ⟨hring, hcount, hsize, hbytes⟩ := ring_use fuel h u hrest.bounds.1 hrest.bounds.2
    rw [← hcount] at hrest
    obtain ⟨hring', hcount', hsize', hbytes'⟩ := ih hring hrest
    refine ⟨hring', ?_, hsize'.trans hsize, fun c hc => (hbytes' c ?_).trans (hbytes c ?_)⟩
    · rw [balance_cons, ← Int.add_assoc, ← hcount]
      exact hcount'
    · intro before a next huses
      have houtside := hc (u :: before) a next (by rw [huses]; rfl)
      rwa [balance_cons, ← Int.add_assoc, ← hcount] at houtside
    · intro a hu
      have houtside := hc [] a uses (by rw [hu]; rfl)
      rwa [balance_nil, Int.add_zero] at houtside

/-- Before each of these uses the ring can take it. -/
theorem ring_before (h : Ring base saved m.board) {u : StackUse} {before next : List StackUse}
    (hfits : Fits saved.length (before ++ u :: next)) :
    Ring base (unmatched saved before) (afterCommands fuel m (before.map command)).board ∧
    0 ≤ ((unmatched saved before).length : Int) + u.change ∧
    ((unmatched saved before).length : Int) + u.change ≤ 128 := by
  obtain ⟨hring, hcount, -⟩ := ring_uses fuel h hfits.first
  rw [hcount]
  exact ⟨hring, (fits_cons.mp hfits.rest).2.bounds⟩

/-- A push that fits is done. -/
theorem answer_push_of_fits (h : Ring base saved m.board) {before next : List StackUse}
    (hfits : Fits saved.length (before ++ .push a :: next)) :
    (perform fuel (.push a)).answer (afterCommands fuel m (before.map command)) = .ok .done := by
  obtain ⟨hring, -, hhigh⟩ := ring_before fuel h hfits
  rw [change] at hhigh
  obtain ⟨s, hends, -⟩ := ring_push fuel hring (by omega) a
  exact Exec.answer_of_ok hends

/-- A pop that fits gives the most recent unmatched address. -/
theorem answer_pop_of_fits (h : Ring base saved m.board) {before next : List StackUse}
    (hfits : Fits saved.length (before ++ .pop :: next)) :
    ∃ a rest, unmatched saved before = a :: rest ∧
      (perform fuel .pop).answer (afterCommands fuel m (before.map command)) =
        .ok (.number (a % 65536)) := by
  obtain ⟨hring, hlow, -⟩ := ring_before fuel h hfits
  rw [change] at hlow
  cases hkept : unmatched saved before with
  | nil =>
    rw [hkept, List.length_nil] at hlow
    omega
  | cons a rest =>
    rw [hkept] at hring
    obtain ⟨s, hends, -⟩ := ring_pop fuel hring
    exact ⟨a, rest, rfl, Exec.answer_of_ok hends⟩

/-! ### One level too many -/

/-- Pushes up to the 128th level are all done. -/
theorem ring_pushes (h : Ring base saved m.board) (as : List Int) (hroom : saved.length + as.length ≤ 128) :
    replies fuel m (as.map Command.push) = List.replicate as.length (.ok .done) ∧
    Ring base (as.reverse ++ saved) (afterCommands fuel m (as.map Command.push)).board := by
  induction as generalizing m saved with
  | nil => exact ⟨rfl, h⟩
  | cons a as ih =>
    rw [List.length_cons] at hroom
    obtain ⟨s, hends, hring, -⟩ := ring_push fuel h (by omega) a
    obtain ⟨hreplies, hring'⟩ := ih hring (by rw [List.length_cons]; omega)
    rw [List.map_cons, replies, afterCommands, Exec.answer_of_ok hends, Exec.after_of_ok hends]
    refine ⟨by rw [hreplies]; rfl, ?_⟩
    rw [List.reverse_cons, List.append_assoc]
    exact hring'

/-- A ring is emptied by as many pops as it keeps addresses. Memory is only read. -/
theorem ring_pops (h : Ring base saved m.board) :
    replies fuel m (List.replicate saved.length .pop) =
      saved.map (fun a => .ok (.number (a % 65536))) ∧
    Ring base [] (afterCommands fuel m (List.replicate saved.length .pop)).board ∧
    (afterCommands fuel m (List.replicate saved.length .pop)).memory = m.memory := by
  induction saved generalizing m with
  | nil => exact ⟨rfl, h, rfl⟩
  | cons a rest ih =>
    obtain ⟨s, hends, hring, hmemory⟩ := ring_pop fuel h
    obtain ⟨hreplies, hempty, hmemory'⟩ := ih hring
    rw [List.length_cons, List.replicate_succ, replies, afterCommands, Exec.answer_of_ok hends,
      Exec.after_of_ok hends]
    exact ⟨by rw [hreplies]; rfl, hempty, hmemory'.trans hmemory⟩

/-- **The 129th push takes the level of the oldest address**, and touches no byte outside of it. -/
theorem ring_wraps {oldest : Int} (h : Ring base (saved ++ [oldest]) m.board) (hcount : saved.length = 127)
    (a : Int) :
    ∃ s, perform fuel (.push a) m = .ok .done s ∧ Ring (base + 2) (a :: saved) s.board ∧
      m.memory.wordAt (slot base 1) = oldest % 65536 ∧ s.memory.wordAt (slot base 1) = a % 65536 ∧
      ∀ c, ¬InSlot base 1 c → s.memory.byteAt c = m.memory.byteAt c := by
  obtain ⟨s, hends, hring, -, hbytes⟩ := ring_push fuel h.forget (by omega) a
  have hwrapped : slot (base + 2) (saved.length + 1) = slot base 1 := by
    rw [hcount, slot_add_two]
    exact slot_wraps base
  have hlast : s.memory.wordAt (slot (base + 2) (saved.length + 1)) = a % 65536 := hring.holds.1
  simp only [InSlot, hwrapped] at hbytes
  rw [hwrapped] at hlast
  exact ⟨s, hends, hring, h.holds.forget.1, hlast, hbytes⟩

/-- 128 pushes fill a ring in which nothing was kept. -/
theorem ring_full (h : Ring base [] m.board) (oldest : Int) {between : List Int}
    (hcount : between.length = 127) :
    replies fuel m ((oldest :: between).map Command.push) = List.replicate 128 (.ok .done) ∧
    Ring base (between.reverse ++ [oldest])
      (afterCommands fuel m ((oldest :: between).map Command.push)).board := by
  have hlength : (oldest :: between).length = 128 := by rw [List.length_cons, hcount]
  have hfull := ring_pushes fuel h (oldest :: between) (by rw [hlength]; decide)
  rwa [hlength, List.append_nil, List.reverse_cons] at hfull

/-- 129 addresses are pushed and 129 taken back. The latest one is given back twice, the oldest
one is lost. -/
theorem replies_one_too_many (h : Ring base [] m.board) (oldest : Int) {between : List Int} (latest : Int)
    (hcount : between.length = 127) :
    replies fuel m ((oldest :: between ++ [latest]).map Command.push ++ List.replicate 129 .pop) =
      List.replicate 129 (.ok .done) ++
        ((latest :: between.reverse).map (fun a => .ok (.number (a % 65536))) ++
          [.ok (.number (latest % 65536))]) := by
  have hrest : between.reverse.length = 127 := by rw [List.length_reverse, hcount]
  -- 128 pushes, which fill the ring, and one more
  obtain ⟨hdone, hfull⟩ := ring_full fuel h oldest hcount
  obtain ⟨s, hends, hring, -⟩ := ring_wraps fuel hfull hrest latest
  -- 128 pops, which empty it, and one more
  obtain ⟨hpopped, hempty, hmemory⟩ := ring_pops fuel hring
  obtain ⟨s', hends', -⟩ := ring_pop fuel (hring.reread hrest hempty hmemory)
  have hcommands : (oldest :: between ++ [latest]).map Command.push ++ List.replicate 129 .pop =
      (oldest :: between).map .push ++ (.push latest ::
        (List.replicate (latest :: between.reverse).length .pop ++ [.pop])) := by
    rw [List.map_append, List.append_assoc, List.length_cons, hrest]
    rfl
  rw [hcommands, replies_append, hdone, replies, replies_append, Exec.answer_of_ok hends,
    Exec.after_of_ok hends, hpopped, replies, Exec.answer_of_ok hends']
  rfl

/-- **An overlay is a stack of 128 levels that closes to a ring.** Pushes and pops that keep between
none and 128 addresses are never refused, wherever SP began. A pop gives the low sixteen bits of
the most recent unmatched address, SP has moved by two for each address that is kept, and no byte
has changed but those of the levels that were pushed to. A reader who begins at 2 finds the
addresses if SP began at zero, and none where there are 128 of them. One push more takes the
level of the oldest address and touches nothing else, so that 129 pops give the latest
address once more at the end. -/
theorem overlay_is_circular_lifo (m : Machine) (fuel : Nat) (hstack : m.board.stack = .overlay)
    (hsize : 257 ≤ m.memory.size) :
    (∀ uses, Fits 0 uses →
      let after := fun (part : List StackUse) => afterCommands fuel m (part.map command)
      let saved := unmatched [] uses
      (∀ before a next, uses = before ++ .push a :: next →
        (perform fuel (.push a)).answer (after before) = .ok .done) ∧
      (∀ before next, uses = before ++ .pop :: next → ∃ a rest, unmatched [] before = a :: rest ∧
        (perform fuel .pop).answer (after before) = .ok (.number (a % 65536))) ∧
      (saved.length : Int) = balance uses ∧
      (after uses).board.sp = (m.board.sp + 2 * balance uses) % 256 ∧
      (after uses).memory.size = m.memory.size ∧
      (∀ c, (∀ before a next, uses = before ++ .push a :: next →
          ¬InSlot m.board.sp (balance before + 1) c) →
        (after uses).memory.byteAt c = m.memory.byteAt c) ∧
      (m.board.sp = 0 → Board.savedAddresses.answer (after uses).board =
        .ok (if balance uses = 128 then [] else saved.reverse.map (· % 65536)))) ∧
    (∀ oldest between latest, between.length = 127 →
      let full := afterCommands fuel m ((oldest :: between).map Command.push)
      let wrapped := (perform fuel (.push latest)).after full
      full.memory.wordAt (slot m.board.sp 1) = oldest % 65536 ∧
      wrapped.memory.wordAt (slot m.board.sp 1) = latest % 65536 ∧
      (∀ c, ¬InSlot m.board.sp 1 c → wrapped.memory.byteAt c = full.memory.byteAt c) ∧
      replies fuel m ((oldest :: between ++ [latest]).map Command.push ++ List.replicate 129 .pop) =
        List.replicate 129 (.ok .done) ++
          ((latest :: between.reverse).map (fun a => .ok (.number (a % 65536))) ++
            [.ok (.number (latest % 65536))])) := by
  have hring : Ring m.board.sp [] m.board := Ring.empty hstack hsize
  constructor
  · intro uses hfits after saved
    obtain ⟨hafter, hcount, hkept, hbytes⟩ := ring_uses fuel hring hfits
    rw [List.length_nil, Int.natCast_zero, Int.zero_add] at hcount
    refine ⟨?_, ?_, hcount, ?_, hkept, ?_, ?_⟩
    · intro before a next huses
      rw [huses] at hfits
      exact answer_push_of_fits fuel hring hfits
    · intro before next huses
      rw [huses] at hfits
      exact answer_pop_of_fits fuel hring hfits
    · rw [← hcount]
      exact hafter.sp
    · intro c hc
      refine hbytes c fun before a next huses => ?_
      rw [List.length_nil, Int.natCast_zero, Int.zero_add]
      exact hc before a next huses
    · intro hzero
      rw [hzero] at hafter
      have hmost := (hfits uses (List.prefix_refl uses)).2
      rw [← hcount]
      split
      case isTrue hfull => exact Exec.answer_of_ok (hafter.savedAddresses_of_full (by omega))
      case isFalse hfew => exact Exec.answer_of_ok (hafter.savedAddresses_of_le (by omega))
  · intro oldest between latest hcount full wrapped
    obtain ⟨-, hfull⟩ := ring_full fuel hring oldest hcount
    obtain ⟨s, hends, -, hoverwritten, hlast, hbytes⟩ :=
      ring_wraps fuel hfull (by rw [List.length_reverse, hcount]) latest
    have hended : wrapped = s := Exec.after_of_ok hends
    rw [hended]
    exact ⟨hoverwritten, hlast, hbytes, replies_one_too_many fuel hring oldest latest hcount⟩

/-- A machine with an overlay in a bank of 257 bytes. -/
def revolving (sp : UInt8) : Machine where
  board := ⟨Memory.blank 257, ⟨Vector.replicate 16 0, 0, 0, sp⟩, .overlay, Screen.ofAnswers []⟩
  processor := Processor.blank true true 0
  journal := Journal.ofSetting Setting.off

/-- Two addresses are saved, the first of them no word, and one is taken back. -/
def turns : List StackUse := [.push 0x12345, .push 7, .pop]

/-- SP began at an odd byte, so the highest level of the ring reaches one byte past the page. -/
theorem overlay_is_circular_lifo_revolving :
    Fits 0 turns ∧
    (perform 0 .pop).answer (afterCommands 0 (revolving 255) [.push 0x12345, .push 7]) =
      .ok (.number 7) ∧
    (afterCommands 0 (revolving 255) (turns.map command)).board.sp = 1 ∧
    Board.savedAddresses.answer (afterCommands 0 (revolving 0) (turns.map command)).board = .ok [0x2345] ∧
    replies 0 (revolving 255)
        ((1 :: List.replicate 127 2 ++ [0x10003] : List Int).map Command.push ++ List.replicate 129 .pop) =
      List.replicate 129 (.ok .done) ++
        (.ok (.number 3) :: List.replicate 127 (.ok (.number 2)) ++ [.ok (.number 3)]) := by
  have hfits : Fits 0 turns := by
    simp only [turns, fits_cons, fits_nil, change]
    decide
  have hsize : ∀ sp, 257 ≤ (revolving sp).memory.size := fun sp => by
    show 257 ≤ (Memory.blank 257).size
    decide +kernel
  obtain ⟨hodd, hover⟩ := overlay_is_circular_lifo (revolving 255) 0 rfl (hsize 255)
  obtain ⟨hlow, -⟩ := overlay_is_circular_lifo (revolving 0) 0 rfl (hsize 0)
  obtain ⟨-, hpop, -, hsp, -⟩ := hodd turns hfits
  obtain ⟨-, -, -, -, -, -, hsaved⟩ := hlow turns hfits
  obtain ⟨a, rest, hkept, hanswer⟩ := hpop [.push 0x12345, .push 7] [] rfl
  obtain ⟨rfl, -⟩ := List.cons.inj hkept
  obtain ⟨-, -, -, hreplies⟩ := hover 1 (List.replicate 127 2) 0x10003 List.length_replicate
  rw [List.map_cons, List.reverse_replicate, List.map_replicate] at hreplies
  exact ⟨hfits, hanswer, hsp, hsaved rfl, hreplies⟩

end Machine

end Chip8

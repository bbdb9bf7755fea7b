import Chip8.Proofs.Accesses

/-!
# The last byte stored

A bank begins with zeros. After any sequence of commands, of which any may have been refused, each
byte is the one that the last command put there that was done and stored a byte at its address, or
still zero. What a command stores depends on the bank only for a copy, whose bytes are those of
its source before the copy begins, so source and target may overlap.

* `stores_or_spares`: one command.
* `lastStored_or_spared`: a sequence of commands, by induction on its first one.
* `memory_returns_last_stored`: what is read afterwards.
-/

namespace Chip8.Memory

/-- The bank after the commands. One that is refused counts as well, and the next one goes on from
what it left. -/
def afterCommands (m : Memory) (cs : List Command) : Memory :=
  cs.foldl (fun m c => (perform c).after m) m

/-- The command is done and puts this byte at the address. -/
def Command.Stores (m : Memory) (c : Command) (p : Int) (b : UInt8) : Prop :=
  (∃ r, (perform c).answer m = .ok r) ∧ c.target ≤ p ∧ (c.stored m)[(p - c.target).toNat]? = some b

/-- None of the commands stores a byte at the address. -/
def Spared (m : Memory) (cs : List Command) (p : Int) : Prop :=
  ∀ before c rest, cs = before ++ c :: rest → ∀ b, ¬c.Stores (m.afterCommands before) p b

/-- The last of the commands that stores a byte at the address puts this one there. -/
def LastStored (m : Memory) (cs : List Command) (p : Int) (b : UInt8) : Prop :=
  ∃ before c rest, cs = before ++ c :: rest ∧ c.Stores (m.afterCommands before) p b ∧
    ((perform c).after (m.afterCommands before)).Spared rest p

variable {m : Memory} {c : Command} {cs : List Command} {p : Int} {b : UInt8}

theorem afterCommands_cons (m : Memory) (c : Command) (cs : List Command) :
    m.afterCommands (c :: cs) = ((perform c).after m).afterCommands cs := rfl

/-! ### One command -/

/-- Where both ends of a block are in the bank, all of it is. -/
theorem block_within {n : Nat} (h : ∀ q ∈ ends p n, q ∈ m) : n = 0 ∨ 0 ≤ p ∧ p + n - 1 ≤ m.top := by
  obtain ⟨hfirst, hlast⟩ := forall_mem_ends.mp h
  rcases Nat.eq_zero_or_pos n with hnone | hpos
  · exact .inl hnone
  · exact .inr ⟨hfirst.1, (hlast (Int.natCast_pos.mpr hpos)).2⟩

/-- A command that is done stores nothing or stores within the bank. -/
theorem stored_within (h : c.missing m = none) :
    (c.stored m).length = 0 ∨ 0 ≤ c.target ∧ c.target + (c.stored m).length - 1 ≤ m.top := by
  have hneeded := Command.missing_eq_none_iff.mp h
  cases c with
  | check | read | readBlock | readWord => exact .inl rfl
  | write a b =>
    have ha : a ∈ m := hneeded a List.mem_cons_self
    exact .inr ⟨ha.1, by simpa [Command.target, Command.stored] using ha.2⟩
  | writeWord a w =>
    have ha : a ∈ m := hneeded a (List.mem_cons_of_mem _ List.mem_cons_self)
    have hnext : a + 1 ∈ m := hneeded (a + 1) List.mem_cons_self
    refine .inr ⟨ha.1, ?_⟩
    have hlast := hnext.2
    simp only [Command.target, Command.stored, List.length_cons, List.length_nil]
    omega
  | writeBlock a block => exact block_within hneeded
  | copyBlock a size target =>
    have htarget : ∀ q ∈ ends target (m.extent a size), q ∈ m := fun q hq =>
      hneeded q (List.mem_append_right _ hq)
    rw [← length_block] at htarget
    exact block_within htarget

/-- **A command puts a byte at an address, where it is found then, or it leaves what is there.** -/
theorem stores_or_spares (m : Memory) (c : Command) (p : Int) :
    (∃ b, c.Stores m p b ∧ ((perform c).after m).byteAt p = b) ∨
      (∀ b, ¬c.Stores m p b) ∧ ((perform c).after m).byteAt p = m.byteAt p := by
  cases hmissing : c.missing m with
  | some q =>
    have hrefused := perform_of_missing hmissing
    refine .inr ⟨fun b hstores => ?_, by rw [Exec.after_of_error hrefused]⟩
    obtain ⟨⟨r, hdone⟩, -⟩ := hstores
    rw [Exec.answer_of_error hrefused] at hdone
    cases hdone
  | none =>
    have hdone := perform_of_none hmissing
    rw [Exec.after_of_ok hdone]
    by_cases hin : c.target ≤ p ∧ p < c.target + (c.stored m).length
    · have hplace : (p - c.target).toNat < (c.stored m).length := by omega
      obtain ⟨h0, h1⟩ := (stored_within hmissing).resolve_left (by omega)
      refine .inl ⟨_, ⟨⟨_, Exec.answer_of_ok hdone⟩, hin.1, List.getElem?_eq_getElem hplace⟩, ?_⟩
      rw [byteAt_setBlock _ h0 h1, if_pos hin, List.getD_eq_getElem?_getD, List.getElem?_eq_getElem hplace,
        Option.getD_some]
    · refine .inr ⟨fun b hstores => ?_, byteAt_setBlock_of_not_mem _ hin⟩
      obtain ⟨-, hstart, hbyte⟩ := hstores
      obtain ⟨hplace, -⟩ := List.getElem?_eq_some_iff.mp hbyte
      omega

/-! ### A sequence of commands -/

theorem spared_nil : m.Spared [] p := by
  intro before c rest h
  simp at h

theorem spared_cons (hfirst : ∀ b, ¬c.Stores m p b) (hrest : ((perform c).after m).Spared cs p) :
    m.Spared (c :: cs) p := by
  intro before c' rest h b
  cases before with
  | nil =>
    obtain ⟨rfl, rfl⟩ := List.cons.inj h
    exact hfirst b
  | cons d before =>
    obtain ⟨rfl, rfl⟩ := List.cons.inj h
    exact hrest before c' rest rfl b

theorem LastStored.cons (h : ((perform c).after m).LastStored cs p b) : m.LastStored (c :: cs) p b := by
  obtain ⟨before, c', rest, rfl, hstores, hspared⟩ := h
  exact ⟨c :: before, c', rest, rfl, hstores, hspared⟩

/-- **A byte is the last one that was stored at its address, or it is as it was.** -/
theorem lastStored_or_spared (m : Memory) (cs : List Command) (p : Int) :
    m.LastStored cs p ((m.afterCommands cs).byteAt p) ∨
      m.Spared cs p ∧ (m.afterCommands cs).byteAt p = m.byteAt p := by
  induction cs generalizing m with
  | nil => exact .inr ⟨spared_nil, rfl⟩
  | cons c cs ih =>
    rw [afterCommands_cons]
    rcases ih ((perform c).after m) with hlast | ⟨hspared, hsame⟩
    · exact .inl hlast.cons
    · rcases stores_or_spares m c p with ⟨b, hstores, hfound⟩ | ⟨hnone, hkept⟩
      · refine .inl ⟨[], c, cs, rfl, ?_, hspared⟩
        rw [hsame, hfound]
        exact hstores
      · exact .inr ⟨spared_cons hnone hspared, hsame.trans hkept⟩

/-- No command changes the size of the bank. -/
theorem size_after_perform (m : Memory) (c : Command) : ((perform c).after m).size = m.size := by
  cases hmissing : c.missing m with
  | none => rw [Exec.after_of_ok (perform_of_none hmissing), size_setBlock]
  | some q => rw [Exec.after_of_error (perform_of_missing hmissing)]

theorem size_afterCommands (m : Memory) (cs : List Command) : (m.afterCommands cs).size = m.size := by
  induction cs generalizing m with
  | nil => rfl
  | cons c cs ih => rw [afterCommands_cons, ih, size_after_perform]

/-! ### What is read -/

theorem answer_read (hp : p ∈ m) : (read p).answer m = .ok (m.byteAt p) := by
  have hread : read p m = .ok (m.byteAt p) m := by rw [read_eq, if_pos hp]
  exact Exec.answer_of_ok hread

theorem answer_readWord (hp : p ∈ m) (hnext : p + 1 ∈ m) :
    (readWord p).answer m = .ok (Word.join (m.byteAt p) (m.byteAt (p + 1))) := by
  have hread : readWord p m = .ok (Word.join (m.byteAt p) (m.byteAt (p + 1))) m := by
    rw [readWord_eq, if_neg (not_not_intro hp), if_neg (not_not_intro hnext)]
  exact Exec.answer_of_ok hread

theorem answer_readBlock {n : Nat} (hp : p ∈ m) (hlast : p + n - 1 ∈ m) :
    (readBlock p n).answer m = .ok ((List.range n).map fun (k : Nat) => m.byteAt (p + k)) := by
  have hends : (ends p n).find? (· ∉ m) = none := by
    rw [find?_ends, if_neg (not_not_intro hp), if_neg fun h => h.2 hlast]
  have hread : readBlock p n m = .ok (m.block p n) m := by rw [readBlock_ends, hends]
  rw [Exec.answer_of_ok hread, block, extent_natCast]

/-- **Memory returns the last byte stored.** After any commands on a bank of zeros, each byte of the
bank is the one that the last of them put there that was done and stored a byte at its address. If
there is none, it is zero. A byte, a word and a block are read as these bytes, the high byte of
a word first, and there are as many bytes as were asked for at the beginning. -/
theorem memory_returns_last_stored (size : Int) (cs : List Command) :
    let m := (blank size).afterCommands cs
    (∀ p, p ∈ m → (blank size).LastStored cs p (m.byteAt p) ∨ (blank size).Spared cs p ∧ m.byteAt p = 0) ∧
    (∀ p, p ∈ m → (read p).answer m = .ok (m.byteAt p)) ∧
    (∀ p, p ∈ m → p + 1 ∈ m → ∃ w, (readWord p).answer m = .ok w ∧
      w.toNat = (m.byteAt p).toNat * 256 + (m.byteAt (p + 1)).toNat) ∧
    (∀ p (n : Nat), 1 ≤ n → p ∈ m → p + n - 1 ∈ m →
      (readBlock p n).answer m = .ok ((List.range n).map fun (k : Nat) => m.byteAt (p + k))) ∧
    m.size = size ∧ (m.cells.size : Int) = max size 0 := by
  intro m
  have hsize : m.size = size := size_afterCommands _ cs
  refine ⟨fun p _ => ?_, fun p hp => answer_read hp,
    fun p hp hnext => ⟨_, answer_readWord hp hnext, Word.toNat_join _ _⟩,
    fun p n _ hp hlast => answer_readBlock hp hlast, hsize, ?_⟩
  · rcases lastStored_or_spared (blank size) cs p with hlast | ⟨hspared, hsame⟩
    · exact .inl hlast
    · exact .inr ⟨hspared, hsame.trans byteAt_blank⟩
  · rw [m.size_cells, hsize]
    omega

/-- A copy reads all of its source before it stores, and a word that does not fit stores nothing. -/
example :
    ((blank 4).afterCommands [.writeBlock 0 [1, 2, 3], .copyBlock 0 3 1, .writeWord 3 0x0405]).slice 0 4 =
      [1, 1, 2, 3] := by decide +kernel

end Chip8.Memory

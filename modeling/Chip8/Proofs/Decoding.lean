import Chip8.Instruction.Decoder
import Chip8.Instruction.Encoding

/-!
# Which integers are instructions

The decoder looks into one table twice, with keys of two kinds. `Denotes` says without a
table which integers stand for an instruction: the two of family `0` are the whole
number, all others are the low sixteen bits of it, which `encode` gives. The decoder
finds an instruction exactly where an integer denotes it (`decode?_eq_some_iff`), so no
two instructions share an integer and the keys of the two looks are never confused.

`Emulated` lists the integers that denote anything by their bits (`emulated_iff`).
-/

namespace Chip8.Instruction

/-- The integer `w` stands for an instruction. -/
def Denotes (w : Int) : Instruction → Prop
  | .clear => w = 0x00E0
  | .ret => w = 0x00EE
  | i => w % 65536 = i.encode

/-- The integers that are instructions: two numbers, eight families, and the words
`0x5xy0`, `0x8xy0`, `0x8xy1`, `0xFx33`, `0xFx55` and `0xFx65`. -/
def Emulated (w : Int) : Prop :=
  w = 0x00E0 ∨ w = 0x00EE ∨
    w / 4096 % 16 ∈ [1, 2, 3, 4, 6, 7, 0xA, 0xD] ∨
    (∃ x y : Nibble, w % 65536 = wordOf 0x5 x y 0x0 ∨ w % 65536 = wordOf 0x8 x y 0x0 ∨
      w % 65536 = wordOf 0x8 x y 0x1) ∨
    ∃ x : Nibble, w % 65536 = wordOfByte 0xF x 0x33 ∨ w % 65536 = wordOfByte 0xF x 0x55 ∨
      w % 65536 = wordOfByte 0xF x 0x65

/-! ### The table -/

/-- The keys of the table are distinct, so a look finds whatever stands under its key. -/
theorem look_eq_some_iff {key : Int} {slot : Slot} : look key = some slot ↔ (key, slot) ∈ table := by
  constructor
  · intro h
    obtain ⟨front, rest, htable, -⟩ := List.lookup_eq_some_iff.mp h
    rw [htable]
    exact List.mem_append_right front List.mem_cons_self
  · intro h
    simp only [table, List.mem_cons, Prod.mk.injEq, List.not_mem_nil, or_false] at h
    rcases h with ⟨rfl, rfl⟩ | ⟨rfl, rfl⟩ | ⟨rfl, rfl⟩ | ⟨rfl, rfl⟩ | ⟨rfl, rfl⟩ | ⟨rfl, rfl⟩ |
      ⟨rfl, rfl⟩ | ⟨rfl, rfl⟩ | ⟨rfl, rfl⟩ | ⟨rfl, rfl⟩ | ⟨rfl, rfl⟩ | ⟨rfl, rfl⟩ | ⟨rfl, rfl⟩ |
      ⟨rfl, rfl⟩ | ⟨rfl, rfl⟩ | ⟨rfl, rfl⟩ | ⟨rfl, rfl⟩ | ⟨rfl, rfl⟩ | ⟨rfl, rfl⟩ |
      ⟨rfl, rfl⟩ <;> rfl

/-- How an instruction is found for `w`: `read` makes it out of the fields of `w`. -/
inductive Found (w : Int) (read : Fields → Instruction) : Prop
  /-- By its first nibble. -/
  | first (h : (((Fields.ofWord w).op.val : Int), Slot.form read) ∈ table) : Found w read
  /-- By its first nibble a family, and in that family by a second key. -/
  | second (part : Part) (key : Int) (h : (((Fields.ofWord w).op.val : Int), Slot.family part) ∈ table)
      (hkey : part.key? w = some key) (hread : (key, Slot.form read) ∈ table) : Found w read

theorem decode?_eq_some_iff_found {w : Int} {i : Instruction} :
    decode? w = some i ↔ ∃ read, Found w read ∧ read (Fields.ofWord w) = i := by
  constructor
  · intro h
    simp only [decode?, Option.bind_eq_bind, Option.bind_eq_some_iff] at h
    obtain ⟨slot, hfirst, h⟩ := h
    rw [look_eq_some_iff] at hfirst
    cases slot with
    | form read => exact ⟨read, .first hfirst, by simpa using h⟩
    | family part =>
      simp only [Option.bind_eq_some_iff] at h
      obtain ⟨key, hkey, slot, hsecond, h⟩ := h
      rw [look_eq_some_iff] at hsecond
      cases slot with
      | form read => exact ⟨read, .second part key hfirst hkey hsecond, by simpa using h⟩
      | family _ => simp at h
  · rintro ⟨read, hfound, rfl⟩
    cases hfound with
    | first h => simp [decode?, look_eq_some_iff.mpr h]
    | second part key h hkey hread =>
      simp [decode?, look_eq_some_iff.mpr h, hkey, look_eq_some_iff.mpr hread]

/-! ### Words and their fields -/

variable {w : Int}

theorem mod_eq_wordOfAddress_iff (op : Nat) {a : Fin 4096} :
    w % 65536 = wordOfAddress op a ↔ w / 4096 % 16 = op ∧ (Fields.ofWord w).nnn = a := by
  have hnnn := Fields.val_nnn w
  rw [← Fin.val_inj, wordOfAddress]
  omega

theorem mod_eq_wordOfByte_iff (op : Nat) {x : Nibble} {b : UInt8} :
    w % 65536 = wordOfByte op x b ↔
      w / 4096 % 16 = op ∧ (Fields.ofWord w).x = x ∧ (Fields.ofWord w).kk = b := by
  have hx := Fields.val_x w
  have hkk := Fields.toNat_kk w
  have hb := b.toNat_lt
  rw [← Fin.val_inj, ← UInt8.toNat_inj, wordOfByte]
  omega

theorem mod_eq_wordOf_iff (op : Nat) {x y n : Nibble} :
    w % 65536 = wordOf op x y n ↔ w / 4096 % 16 = op ∧ (Fields.ofWord w).x = x ∧
      (Fields.ofWord w).y = y ∧ (Fields.ofWord w).n = n := by
  have hx := Fields.val_x w
  have hy := Fields.val_y w
  have hn := Fields.val_n w
  rw [← Fin.val_inj, ← Fin.val_inj, ← Fin.val_inj, wordOf]
  omega

/-- Denoting an instruction, read off the fields. -/
theorem denotes_iff {i : Instruction} :
    Denotes w i ↔
      match i with
      | .clear => w = 0x00E0
      | .ret => w = 0x00EE
      | .jump a => w / 4096 % 16 = 0x1 ∧ (Fields.ofWord w).nnn = a
      | .call a => w / 4096 % 16 = 0x2 ∧ (Fields.ofWord w).nnn = a
      | .skipEq x b => w / 4096 % 16 = 0x3 ∧ (Fields.ofWord w).x = x ∧ (Fields.ofWord w).kk = b
      | .skipNe x b => w / 4096 % 16 = 0x4 ∧ (Fields.ofWord w).x = x ∧ (Fields.ofWord w).kk = b
      | .skipSame x y => w / 4096 % 16 = 0x5 ∧ (Fields.ofWord w).x = x ∧ (Fields.ofWord w).y = y ∧
          (Fields.ofWord w).n = 0x0
      | .set x b => w / 4096 % 16 = 0x6 ∧ (Fields.ofWord w).x = x ∧ (Fields.ofWord w).kk = b
      | .add x b => w / 4096 % 16 = 0x7 ∧ (Fields.ofWord w).x = x ∧ (Fields.ofWord w).kk = b
      | .move x y => w / 4096 % 16 = 0x8 ∧ (Fields.ofWord w).x = x ∧ (Fields.ofWord w).y = y ∧
          (Fields.ofWord w).n = 0x0
      | .or x y => w / 4096 % 16 = 0x8 ∧ (Fields.ofWord w).x = x ∧ (Fields.ofWord w).y = y ∧
          (Fields.ofWord w).n = 0x1
      | .index a => w / 4096 % 16 = 0xA ∧ (Fields.ofWord w).nnn = a
      | .draw x y n => w / 4096 % 16 = 0xD ∧ (Fields.ofWord w).x = x ∧ (Fields.ofWord w).y = y ∧
          (Fields.ofWord w).n = n
      | .decimal x => w / 4096 % 16 = 0xF ∧ (Fields.ofWord w).x = x ∧ (Fields.ofWord w).kk = 0x33
      | .store x => w / 4096 % 16 = 0xF ∧ (Fields.ofWord w).x = x ∧ (Fields.ofWord w).kk = 0x55
      | .load x => w / 4096 % 16 = 0xF ∧ (Fields.ofWord w).x = x ∧ (Fields.ofWord w).kk = 0x65 := by
  cases i with
  | clear => exact Iff.rfl
  | ret => exact Iff.rfl
  | jump a => exact mod_eq_wordOfAddress_iff 0x1
  | call a => exact mod_eq_wordOfAddress_iff 0x2
  | skipEq x b => exact mod_eq_wordOfByte_iff 0x3
  | skipNe x b => exact mod_eq_wordOfByte_iff 0x4
  | skipSame x y => exact mod_eq_wordOf_iff 0x5 (n := 0)
  | set x b => exact mod_eq_wordOfByte_iff 0x6
  | add x b => exact mod_eq_wordOfByte_iff 0x7
  | move x y => exact mod_eq_wordOf_iff 0x8 (n := 0)
  | or x y => exact mod_eq_wordOf_iff 0x8 (n := 1)
  | index a => exact mod_eq_wordOfAddress_iff 0xA
  | draw x y n => exact mod_eq_wordOf_iff 0xD
  | decimal x => exact mod_eq_wordOfByte_iff 0xF
  | store x => exact mod_eq_wordOfByte_iff 0xF
  | load x => exact mod_eq_wordOfByte_iff 0xF

/-! ### What the decoder finds -/

/-- The rows of the table that make an instruction: eight for a first look, then eight for
a second one. -/
theorem form_mem_table_iff {key : Int} {read : Fields → Instruction} :
    (key, Slot.form read) ∈ table ↔
      (key = 0x1 ∧ read = fun f => .jump f.nnn) ∨ (key = 0x2 ∧ read = fun f => .call f.nnn) ∨
      (key = 0x3 ∧ read = fun f => .skipEq f.x f.kk) ∨ (key = 0x4 ∧ read = fun f => .skipNe f.x f.kk) ∨
      (key = 0x6 ∧ read = fun f => .set f.x f.kk) ∨ (key = 0x7 ∧ read = fun f => .add f.x f.kk) ∨
      (key = 0xA ∧ read = fun f => .index f.nnn) ∨ (key = 0xD ∧ read = fun f => .draw f.x f.y f.n) ∨
      (key = 0x00E0 ∧ read = fun _ => .clear) ∨ (key = 0x00EE ∧ read = fun _ => .ret) ∨
      (key = 0x5000 ∧ read = fun f => .skipSame f.x f.y) ∨ (key = 0x8000 ∧ read = fun f => .move f.x f.y) ∨
      (key = 0x8001 ∧ read = fun f => .or f.x f.y) ∨ (key = 0xF033 ∧ read = fun f => .decimal f.x) ∨
      (key = 0xF055 ∧ read = fun f => .store f.x) ∨ (key = 0xF065 ∧ read = fun f => .load f.x) := by
  simp [table]

/-- The key of a second look is none of a first one, and it says which family was met. -/
theorem second_key {part : Part} {key : Int}
    (h : (((Fields.ofWord w).op.val : Int), Slot.family part) ∈ table) (hkey : part.key? w = some key) :
    0x10 ≤ key ∧ (w / 4096 % 16 = 0x0 ∧ key = w ∨
      (w / 4096 % 16 = 0x5 ∨ w / 4096 % 16 = 0x8) ∧ key = w / 4096 % 16 * 4096 + w % 16 ∨
      w / 4096 % 16 = 0xF ∧ key = w / 4096 % 16 * 4096 + w % 256) := by
  rw [Fields.val_op] at h
  simp only [table, List.mem_cons, Prod.mk.injEq, Slot.family.injEq, reduceCtorEq, and_false, false_or,
    List.not_mem_nil, or_false] at h
  rcases h with ⟨hop, rfl⟩ | ⟨hop, rfl⟩ | ⟨hop, rfl⟩ | ⟨hop, rfl⟩
  · simp only [Part.key?, Option.ite_none_left_eq_some, Option.some.injEq] at hkey
    omega
  all_goals
    simp only [Part.key?, Option.some.injEq] at hkey
    omega

theorem denotes_of_found {read : Fields → Instruction} (h : Found w read) :
    Denotes w (read (Fields.ofWord w)) := by
  have hn := Fields.val_n w
  have hkk := Fields.toNat_kk w
  rw [denotes_iff]
  cases h with
  | first h =>
    have hop := Fields.val_op w
    -- a nibble is none of the keys of a second look
    rcases form_mem_table_iff.mp h with ⟨h, rfl⟩ | ⟨h, rfl⟩ | ⟨h, rfl⟩ | ⟨h, rfl⟩ | ⟨h, rfl⟩ |
      ⟨h, rfl⟩ | ⟨h, rfl⟩ | ⟨h, rfl⟩ | ⟨h, -⟩ | ⟨h, -⟩ | ⟨h, -⟩ | ⟨h, -⟩ | ⟨h, -⟩ | ⟨h, -⟩ |
      ⟨h, -⟩ | ⟨h, -⟩
    · exact ⟨by omega, rfl⟩
    · exact ⟨by omega, rfl⟩
    · exact ⟨by omega, rfl, rfl⟩
    · exact ⟨by omega, rfl, rfl⟩
    · exact ⟨by omega, rfl, rfl⟩
    · exact ⟨by omega, rfl, rfl⟩
    · exact ⟨by omega, rfl⟩
    · exact ⟨by omega, rfl, rfl, rfl⟩
    all_goals omega
  | second part key h hkey hread =>
    obtain ⟨habove, hfamily⟩ := second_key h hkey
    rcases form_mem_table_iff.mp hread with ⟨h, -⟩ | ⟨h, -⟩ | ⟨h, -⟩ | ⟨h, -⟩ | ⟨h, -⟩ | ⟨h, -⟩ |
      ⟨h, -⟩ | ⟨h, -⟩ | ⟨h, rfl⟩ | ⟨h, rfl⟩ | ⟨h, rfl⟩ | ⟨h, rfl⟩ | ⟨h, rfl⟩ | ⟨h, rfl⟩ | ⟨h, rfl⟩ |
      ⟨h, rfl⟩
    iterate 8 omega
    · show w = 0x00E0
      omega
    · show w = 0x00EE
      omega
    · exact ⟨by omega, rfl, rfl, Fin.ext (by omega)⟩
    · exact ⟨by omega, rfl, rfl, Fin.ext (by omega)⟩
    · exact ⟨by omega, rfl, rfl, Fin.ext (by omega)⟩
    · exact ⟨by omega, rfl, UInt8.toNat_inj.mp (show _ = 0x33 by omega)⟩
    · exact ⟨by omega, rfl, UInt8.toNat_inj.mp (show _ = 0x55 by omega)⟩
    · exact ⟨by omega, rfl, UInt8.toNat_inj.mp (show _ = 0x65 by omega)⟩

/-- An instruction is found by its first nibble alone. -/
theorem Found.of_first {op : Int} {read : Fields → Instruction} (hop : w / 4096 % 16 = op)
    (hlook : look op = some (.form read)) : Found w read :=
  .first (by rw [Fields.val_op, hop]; exact look_eq_some_iff.mp hlook)

/-- An instruction is found in a family. -/
theorem Found.of_second {op : Int} (part : Part) (key : Int) {read : Fields → Instruction}
    (hop : w / 4096 % 16 = op) (hlook : look op = some (.family part)) (hkey : part.key? w = some key)
    (hform : look key = some (.form read)) : Found w read :=
  .second part key (by rw [Fields.val_op, hop]; exact look_eq_some_iff.mp hlook) hkey
    (look_eq_some_iff.mp hform)

theorem found_of_denotes {i : Instruction} (h : Denotes w i) :
    ∃ read, Found w read ∧ read (Fields.ofWord w) = i := by
  have hn := Fields.val_n w
  have hkk := Fields.toNat_kk w
  rw [denotes_iff] at h
  cases i with
  | clear =>
    subst h
    exact ⟨_, .of_second .whole 0x00E0 rfl rfl rfl rfl, rfl⟩
  | ret =>
    subst h
    exact ⟨_, .of_second .whole 0x00EE rfl rfl rfl rfl, rfl⟩
  | jump a =>
    obtain ⟨hop, rfl⟩ := h
    exact ⟨_, .of_first hop rfl, rfl⟩
  | call a =>
    obtain ⟨hop, rfl⟩ := h
    exact ⟨_, .of_first hop rfl, rfl⟩
  | skipEq x b =>
    obtain ⟨hop, rfl, rfl⟩ := h
    exact ⟨_, .of_first hop rfl, rfl⟩
  | skipNe x b =>
    obtain ⟨hop, rfl, rfl⟩ := h
    exact ⟨_, .of_first hop rfl, rfl⟩
  | skipSame x y =>
    obtain ⟨hop, rfl, rfl, hlast⟩ := h
    rw [hlast] at hn
    exact ⟨_, .of_second .lastNibble 0x5000 hop rfl (congrArg some (by omega)) rfl, rfl⟩
  | set x b =>
    obtain ⟨hop, rfl, rfl⟩ := h
    exact ⟨_, .of_first hop rfl, rfl⟩
  | add x b =>
    obtain ⟨hop, rfl, rfl⟩ := h
    exact ⟨_, .of_first hop rfl, rfl⟩
  | move x y =>
    obtain ⟨hop, rfl, rfl, hlast⟩ := h
    rw [hlast] at hn
    exact ⟨_, .of_second .lastNibble 0x8000 hop rfl (congrArg some (by omega)) rfl, rfl⟩
  | or x y =>
    obtain ⟨hop, rfl, rfl, hlast⟩ := h
    rw [hlast] at hn
    exact ⟨_, .of_second .lastNibble 0x8001 hop rfl (congrArg some (by omega)) rfl, rfl⟩
  | index a =>
    obtain ⟨hop, rfl⟩ := h
    exact ⟨_, .of_first hop rfl, rfl⟩
  | draw x y n =>
    obtain ⟨hop, rfl, rfl, rfl⟩ := h
    exact ⟨_, .of_first hop rfl, rfl⟩
  | decimal x =>
    obtain ⟨hop, rfl, hlast⟩ := h
    rw [hlast] at hkk
    exact ⟨_, .of_second .lastByte 0xF033 hop rfl (congrArg some (by simp at hkk; omega)) rfl, rfl⟩
  | store x =>
    obtain ⟨hop, rfl, hlast⟩ := h
    rw [hlast] at hkk
    exact ⟨_, .of_second .lastByte 0xF055 hop rfl (congrArg some (by simp at hkk; omega)) rfl, rfl⟩
  | load x =>
    obtain ⟨hop, rfl, hlast⟩ := h
    rw [hlast] at hkk
    exact ⟨_, .of_second .lastByte 0xF065 hop rfl (congrArg some (by simp at hkk; omega)) rfl, rfl⟩

/-- **The decoder finds an instruction exactly where an integer denotes it.** -/
theorem decode?_eq_some_iff {i : Instruction} : decode? w = some i ↔ Denotes w i := by
  rw [decode?_eq_some_iff_found]
  constructor
  · rintro ⟨read, hfound, rfl⟩
    exact denotes_of_found hfound
  · exact found_of_denotes

/-- No integer stands for two instructions. -/
theorem Denotes.unique {i j : Instruction} (hi : Denotes w i) (hj : Denotes w j) : i = j :=
  Option.some.inj ((decode?_eq_some_iff.mpr hi).symm.trans (decode?_eq_some_iff.mpr hj))

/-! ### The integers that are instructions -/

theorem Emulated.denotes (h : Emulated w) : ∃ i, Denotes w i := by
  rcases h with h | h | h | ⟨x, y, h | h | h⟩ | ⟨x, h | h | h⟩
  · exact ⟨.clear, h⟩
  · exact ⟨.ret, h⟩
  · simp only [List.mem_cons, List.not_mem_nil, or_false] at h
    rcases h with h | h | h | h | h | h | h | h
    · exact ⟨.jump _, denotes_iff.mpr ⟨h, rfl⟩⟩
    · exact ⟨.call _, denotes_iff.mpr ⟨h, rfl⟩⟩
    · exact ⟨.skipEq _ _, denotes_iff.mpr ⟨h, rfl, rfl⟩⟩
    · exact ⟨.skipNe _ _, denotes_iff.mpr ⟨h, rfl, rfl⟩⟩
    · exact ⟨.set _ _, denotes_iff.mpr ⟨h, rfl, rfl⟩⟩
    · exact ⟨.add _ _, denotes_iff.mpr ⟨h, rfl, rfl⟩⟩
    · exact ⟨.index _, denotes_iff.mpr ⟨h, rfl⟩⟩
    · exact ⟨.draw _ _ _, denotes_iff.mpr ⟨h, rfl, rfl, rfl⟩⟩
  · exact ⟨.skipSame x y, h⟩
  · exact ⟨.move x y, h⟩
  · exact ⟨.or x y, h⟩
  · exact ⟨.decimal x, h⟩
  · exact ⟨.store x, h⟩
  · exact ⟨.load x, h⟩

theorem Denotes.emulated {i : Instruction} (h : Denotes w i) : Emulated w := by
  have family : ∀ {op : Int}, op ∈ [1, 2, 3, 4, 6, 7, 0xA, 0xD] → w / 4096 % 16 = op → Emulated w :=
    fun hmem hop => .inr (.inr (.inl (hop ▸ hmem)))
  cases i with
  | clear => exact .inl h
  | ret => exact .inr (.inl h)
  | skipSame x y => exact .inr (.inr (.inr (.inl ⟨x, y, .inl h⟩)))
  | move x y => exact .inr (.inr (.inr (.inl ⟨x, y, .inr (.inl h)⟩)))
  | or x y => exact .inr (.inr (.inr (.inl ⟨x, y, .inr (.inr h)⟩)))
  | decimal x => exact .inr (.inr (.inr (.inr ⟨x, .inl h⟩)))
  | store x => exact .inr (.inr (.inr (.inr ⟨x, .inr (.inl h)⟩)))
  | load x => exact .inr (.inr (.inr (.inr ⟨x, .inr (.inr h)⟩)))
  | jump a => exact family (by decide) (denotes_iff.mp h).1
  | call a => exact family (by decide) (denotes_iff.mp h).1
  | skipEq x b => exact family (by decide) (denotes_iff.mp h).1
  | skipNe x b => exact family (by decide) (denotes_iff.mp h).1
  | set x b => exact family (by decide) (denotes_iff.mp h).1
  | add x b => exact family (by decide) (denotes_iff.mp h).1
  | index a => exact family (by decide) (denotes_iff.mp h).1
  | draw x y n => exact family (by decide) (denotes_iff.mp h).1

/-- The integers that are instructions are those that denote one. -/
theorem emulated_iff : Emulated w ↔ ∃ i, Denotes w i :=
  ⟨Emulated.denotes, fun ⟨_, h⟩ => h.emulated⟩

theorem decode?_eq_none_iff : decode? w = none ↔ ¬Emulated w := by
  rw [emulated_iff, Option.eq_none_iff_forall_ne_some]
  simp only [ne_eq, decode?_eq_some_iff, not_exists]

/-- The families stand under keys of a first look only, so a second look never meets one. -/
theorem family_key_lt {key : Int} {part : Part} (h : (key, Slot.family part) ∈ table) : key < 0x10 := by
  simp only [table, List.mem_cons, Prod.mk.injEq, Slot.family.injEq, reduceCtorEq, and_false, false_or,
    List.not_mem_nil, or_false] at h
  omega

end Chip8.Instruction

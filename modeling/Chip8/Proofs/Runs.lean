import Chip8.Memory.Difference
import Chip8.Memory.Lemmas

/-!
# Places in runs

A list that holds something at some of its places is told as runs of consecutive places. Nothing is lost or
added, and the runs are as long as they can be: none is empty, they go upwards, and between two of them
there is a place at which nothing stands.

What changed in a bank is told in this way. So an address is in one of these runs with a byte exactly if that
byte is there now and was not before, and where there are no runs, nothing has changed.

* `at_ofList_iff` and `apart_ofList`: what is in the runs, and that they are apart.
* `at_changes_iff` and `changes_eq_nil_iff`: what changed, and when nothing has.
-/

namespace Chip8

namespace Run

variable {α : Type} {first place : Int} {item : α}

/-- The run has the item at the place. -/
def At (r : Run α) (place : Int) (item : α) : Prop := ∃ k : Nat, r.items[k]? = some item ∧ place = r.first + k

/-- No run is empty, and each ends before a gap that the later ones come after. -/
def Apart (runs : List (Run α)) : Prop :=
  (∀ r ∈ runs, r.items ≠ []) ∧ runs.Pairwise fun r s => r.last + 1 < s.first

theorem at_cons_iff {items : List α} {a : α} :
    (Run.mk first (a :: items)).At place item ↔
      (place = first ∧ item = a) ∨ (Run.mk (first + 1) items).At place item := by
  constructor
  · rintro ⟨k, hitem, hplace⟩
    cases k with
    | zero =>
      rw [List.getElem?_cons_zero, Option.some.injEq] at hitem
      exact .inl ⟨by simpa using hplace, hitem.symm⟩
    | succ k =>
      rw [List.getElem?_cons_succ] at hitem
      refine .inr ⟨k, hitem, ?_⟩
      dsimp only at hplace ⊢
      omega
  · rintro (⟨rfl, rfl⟩ | ⟨k, hitem, hplace⟩)
    · exact ⟨0, rfl, by simp⟩
    · refine ⟨k + 1, hitem, ?_⟩
      dsimp only at hplace ⊢
      omega

/-- Something stands at the places from the first one up to the last one of a run. -/
theorem exists_at_iff {r : Run α} : (∃ a, r.At place a) ↔ r.first ≤ place ∧ place ≤ r.last := by
  constructor
  · rintro ⟨a, k, hitem, rfl⟩
    obtain ⟨hk, -⟩ := List.getElem?_eq_some_iff.mp hitem
    rw [last]
    omega
  · rintro ⟨hfirst, hlast⟩
    rw [last] at hlast
    have hk : (place - r.first).toNat < r.items.length := by omega
    exact ⟨_, _, List.getElem?_eq_getElem hk, by omega⟩

theorem first_le_last {r : Run α} (h : r.items ≠ []) : r.first ≤ r.last := by
  have hlength := List.length_pos_iff.mpr h
  rw [last]
  omega

/-- A run that is not empty has an item at its first place. -/
theorem exists_at_first {r : Run α} (h : r.items ≠ []) : ∃ a, r.At r.first a :=
  exists_at_iff.mpr ⟨Int.le_refl _, first_le_last h⟩

theorem apart_cons_iff {r : Run α} {runs : List (Run α)} :
    Apart (r :: runs) ↔ r.items ≠ [] ∧ (∀ s ∈ runs, r.last + 1 < s.first) ∧ Apart runs := by
  simp only [Apart, List.forall_mem_cons, List.pairwise_cons]
  constructor
  · rintro ⟨⟨hr, hitems⟩, hgap, hgaps⟩
    exact ⟨hr, hgap, hitems, hgaps⟩
  · rintro ⟨hr, hgap, hitems, hgaps⟩
    exact ⟨⟨hr, hitems⟩, hgap, hgaps⟩

/-! ### One place in front -/

/-- The place is added, and no other one. -/
theorem at_attach_iff {p : Int} {a : α} (runs : List (Run α)) :
    (∃ r ∈ attach p a runs, r.At place item) ↔
      (place = p ∧ item = a) ∨ ∃ r ∈ runs, r.At place item := by
  cases runs with
  | nil =>
    simp only [attach, List.mem_singleton, exists_eq_left, at_cons_iff, List.not_mem_nil, false_and, exists_false]
    simp [At]
  | cons r runs =>
    rw [attach]
    split
    case isTrue hnext =>
      have hrun : Run.mk (p + 1) r.items = r := by rw [← hnext]
      simp only [List.mem_cons, exists_eq_or_imp, at_cons_iff, hrun, or_assoc]
    case isFalse =>
      simp only [List.mem_cons, exists_eq_or_imp, at_cons_iff]
      simp [At]

/-- The runs stay apart if the place is before all of them. -/
theorem apart_attach {p : Int} {a : α} {runs : List (Run α)} (h : Apart runs) (hp : ∀ r ∈ runs, p < r.first) :
    Apart (attach p a runs) := by
  cases runs with
  | nil => simp [attach, Apart]
  | cons r runs =>
    obtain ⟨hr, hgap, hrest⟩ := apart_cons_iff.mp h
    rw [attach]
    split
    case isTrue hnext =>
      have hlast : (Run.mk p (a :: r.items)).last = r.last := by
        simp only [last, List.length_cons]
        omega
      refine apart_cons_iff.mpr ⟨List.cons_ne_nil _ _, fun s hs => ?_, hrest⟩
      rw [hlast]
      exact hgap s hs
    case isFalse hbefore =>
      have hlast : (Run.mk p [a]).last = p := by simp [last]
      have hpr := hp r List.mem_cons_self
      refine apart_cons_iff.mpr ⟨List.cons_ne_nil _ _, fun s hs => ?_, h⟩
      rw [hlast]
      rcases List.mem_cons.mp hs with rfl | hs
      · omega
      · -- the first run has a place, which is before those of the others
        have hplace := first_le_last hr
        have hrs := hgap s hs
        omega

/-! ### All places -/

theorem ofList_eq_foldr (first : Int) (items : List (Option α)) :
    ofList first items = items.zipIdx.foldr (fun p runs =>
      p.1.elim runs fun a => attach (first + p.2) a runs) [] := by
  rw [ofList]
  congr 1
  funext p runs
  obtain ⟨_ | a, k⟩ := p <;> rfl

/-- The first place is put in front of the runs of the others, if something stands there. -/
theorem ofList_cons (first : Int) (x : Option α) (items : List (Option α)) :
    ofList first (x :: items) =
      x.elim (ofList (first + 1) items) fun a => attach first a (ofList (first + 1) items) := by
  -- counted from the second place, the others stand one place further
  have hplace : ∀ k : Nat, first + (k + 1 : Nat) = first + 1 + (k : Int) := by
    intro k
    omega
  have hrest : ofList (first + 1) items = items.zipIdx.foldr (fun p runs =>
      p.1.elim runs fun a => attach (first + (p.2 + 1 : Nat)) a runs) [] := by
    simp only [ofList_eq_foldr, hplace]
  rw [ofList_eq_foldr, List.zipIdx_cons, List.foldr_cons, List.zipIdx_succ, List.foldr_map, hrest]
  simp only [Int.natCast_zero, Int.add_zero]

/-- **The runs have an item at a place exactly if the list has it there.** -/
theorem at_ofList_iff {items : List (Option α)} :
    (∃ r ∈ ofList first items, r.At place item) ↔ (Run.mk first items).At place (some item) := by
  induction items generalizing first with
  | nil => simp [ofList, At]
  | cons x items ih =>
    rw [ofList_cons, at_cons_iff]
    cases x with
    | none => simp [ih]
    | some a => rw [Option.elim_some, at_attach_iff, ih, Option.some.injEq]

theorem le_first_of_mem_ofList {items : List (Option α)} {r : Run α} (h : r ∈ ofList first items)
    (hr : r.items ≠ []) : first ≤ r.first := by
  obtain ⟨a, ha⟩ := exists_at_first hr
  obtain ⟨k, -, hplace⟩ := at_ofList_iff.mp ⟨r, h, ha⟩
  dsimp only at hplace
  omega

/-- **The runs are as long as they can be.** -/
theorem apart_ofList (first : Int) (items : List (Option α)) : Apart (ofList first items) := by
  induction items generalizing first with
  | nil => simp [ofList, Apart]
  | cons x items ih =>
    rw [ofList_cons]
    cases x with
    | none => exact ih (first + 1)
    | some a =>
      have happart := ih (first + 1)
      refine apart_attach happart fun r hr => ?_
      have := le_first_of_mem_ofList hr (happart.1 r hr)
      omega

end Run

namespace Memory

variable {before after : Memory}

/-- What stands at a place of the comparison: the new byte of the address, if it is another one. -/
theorem getElem?_zipWith_cells (hsize : before.size = after.size) (k : Nat) (b : UInt8) :
    (List.zipWith (fun old new => if new = old then none else some new) before.cells.toList
        after.cells.toList)[k]? = some (some b) ↔
      (k : Int) ∈ before ∧ after.byteAt k = b ∧ before.byteAt k ≠ b := by
  have hbefore := before.size_cells
  have hafter := after.size_cells
  by_cases hk : k < before.cells.size
  · have hk' : k < after.cells.size := by omega
    have hmem : (k : Int) ∈ before := by
      rw [mem_iff, top_def]
      omega
    have hold : before.byteAt k = before.cells[k] := by simp [byteAt, hk]
    have hnew : after.byteAt k = after.cells[k] := by simp [byteAt, hk']
    rw [List.getElem?_eq_getElem (by simp; omega), List.getElem_zipWith, hold, hnew]
    simp only [Array.getElem_toList, Option.some.injEq, hmem, true_and]
    split
    case isTrue heq => simp [heq]
    case isFalse hne =>
      rw [Option.some.injEq]
      constructor
      · rintro rfl
        exact ⟨rfl, Ne.symm hne⟩
      · exact And.left
  · have hmem : (k : Int) ∉ before := by
      rw [mem_iff, top_def]
      omega
    rw [List.getElem?_eq_none (by simp; omega)]
    simp [hmem]

/-- **An address is in the changes with a byte exactly if that byte is new there.** -/
theorem at_changes_iff (hsize : before.size = after.size) {a : Int} {b : UInt8} :
    (∃ r ∈ changes before after, r.At a b) ↔ a ∈ before ∧ after.byteAt a = b ∧ before.byteAt a ≠ b := by
  rw [changes, Run.at_ofList_iff]
  simp only [Run.At, getElem?_zipWith_cells hsize]
  constructor
  · rintro ⟨k, hk, rfl⟩
    simpa using hk
  · intro h
    refine ⟨a.toNat, ?_, ?_⟩
    · rwa [Int.toNat_of_nonneg h.1.1]
    · rw [Int.toNat_of_nonneg h.1.1, Int.zero_add]

/-- **Nothing has changed exactly if the banks are the same.** -/
theorem changes_eq_nil_iff (hsize : before.size = after.size) : changes before after = [] ↔ before = after := by
  constructor
  · intro hnone
    refine ext_byteAt hsize fun a ha => ?_
    by_cases heq : before.byteAt a = after.byteAt a
    · exact heq
    · obtain ⟨r, hr, -⟩ := (at_changes_iff hsize).mpr ⟨ha, rfl, heq⟩
      rw [hnone] at hr
      exact absurd hr List.not_mem_nil
  · rintro rfl
    refine List.eq_nil_iff_forall_not_mem.mpr fun r hr => ?_
    -- a run is not empty, and what stands in it would be another byte than it is
    obtain ⟨b, hb⟩ := Run.exists_at_first ((Run.apart_ofList _ _).1 r hr)
    obtain ⟨-, hnew, hold⟩ := (at_changes_iff rfl).mp ⟨r, hr, hb⟩
    exact hold hnew

end Memory

end Chip8

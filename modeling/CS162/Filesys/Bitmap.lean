/-
# The free map's bitmap

`projects1-3/src/lib/kernel/bitmap.c`: `bitmap_set_multiple`,
`bitmap_contains`, `bitmap_all`, `bitmap_scan`, `bitmap_scan_and_flip`, and the
bytes `bitmap_write` hands to the free map's file.

The element array is a function on bit numbers; what it holds from `bit_cnt` on
are the unused bits of the last element.  The callers' range assertions are
theirs to check (`InRange`).
-/

import Mathlib.Algebra.Group.Nat.Defs
import Mathlib.Data.Fintype.Card
import Mathlib.Data.List.Range
import Mathlib.Tactic.SplitIfs
import CS162.Basis.Extents

namespace CS162
namespace Filesys

open CS162.Basis

/-- `struct bitmap`.  `bit_cnt` is a `size_t`. -/
structure Bitmap where
  bitCnt : ℕ
  bits : ℕ → Bool
  bitCnt_lt : bitCnt < 2 ^ 32

namespace Bitmap

/-- The assertions `start <= b->bit_cnt` and `start + cnt <= b->bit_cnt`. -/
def InRange (b : Bitmap) (start cnt : ℕ) : Prop := start + cnt ≤ b.bitCnt

instance (b : Bitmap) (start cnt : ℕ) : Decidable (b.InRange start cnt) :=
  inferInstanceAs (Decidable (_ ≤ _))

/-- `bitmap_set_multiple`. -/
def setMultiple (b : Bitmap) (start cnt : ℕ) (value : Bool) : Bitmap :=
  { b with bits := fun i => if start ≤ i ∧ i < start + cnt then value else b.bits i }

/-- `bitmap_contains`. -/
def contains (b : Bitmap) (start cnt : ℕ) (value : Bool) : Bool :=
  (List.range cnt).any fun i => b.bits (start + i) == value

/-- `bitmap_all`. -/
def all (b : Bitmap) (start cnt : ℕ) : Bool := !b.contains start cnt false

/-- `bitmap_scan`; `none` is `BITMAP_ERROR`. -/
def scan (b : Bitmap) (start cnt : ℕ) (value : Bool) : Option ℕ :=
  if cnt ≤ b.bitCnt then
    (List.range' start (b.bitCnt - cnt + 1 - start)).find? fun i => !b.contains i cnt (!value)
  else none

/-- `bitmap_scan_and_flip`. -/
def scanAndFlip (b : Bitmap) (start cnt : ℕ) (value : Bool) : Option (ℕ × Bitmap) :=
  (b.scan start cnt value).map fun i => (i, b.setMultiple i cnt (!value))

/-- `byte_cnt`, in elements of four bytes: `bitmap_file_size`. -/
def byteCnt (b : Bitmap) : ℕ := 4 * ((b.bitCnt + 31) / 32)

/-- The bytes of the element array, lowest bit first. -/
def bytes (b : Bitmap) : List UInt8 :=
  (List.range b.byteCnt).map fun k =>
    UInt8.ofNat ((List.range 8).foldl (fun n j => n + if b.bits (8 * k + j) then 2 ^ j else 0) 0)

@[simp] theorem length_bytes (b : Bitmap) : b.bytes.length = b.byteCnt := by
  simp [bytes]

@[simp] theorem bitCnt_setMultiple (b : Bitmap) (start cnt : ℕ) (value : Bool) :
    (b.setMultiple start cnt value).bitCnt = b.bitCnt := rfl

@[simp] theorem byteCnt_setMultiple (b : Bitmap) (start cnt : ℕ) (value : Bool) :
    (b.setMultiple start cnt value).byteCnt = b.byteCnt := rfl

theorem bits_setMultiple_one (b : Bitmap) (i j : ℕ) (value : Bool) :
    (b.setMultiple i 1 value).bits j = if j = i then value else b.bits j := by
  simp only [setMultiple]
  congr 1
  exact propext ⟨fun h => by omega, fun h => by omega⟩

@[simp] theorem contains_one (b : Bitmap) (i : ℕ) (value : Bool) :
    b.contains i 1 value = (b.bits i == value) := by
  simp [contains]

@[simp] theorem all_one (b : Bitmap) (i : ℕ) : b.all i 1 = b.bits i := by
  simp [all]

/-- A successful scan for one free bit finds the lowest. -/
theorem scan_one_some {b : Bitmap} {i : ℕ} (h : b.scan 0 1 false = some i) :
    i < b.bitCnt ∧ b.bits i = false ∧ ∀ j < i, b.bits j = true := by
  unfold scan at h
  split_ifs at h with hpos
  rw [List.find?_eq_some_iff_getElem] at h
  obtain ⟨hi, k, hk, hget, hlow⟩ := h
  rw [List.getElem_range'] at hget
  rw [List.length_range'] at hk
  obtain rfl : k = i := by omega
  refine ⟨by omega, by simpa using hi, fun j hj => ?_⟩
  have hj' := hlow j hj
  rw [List.getElem_range'] at hj'
  simpa using hj'

/-- A scan for one free bit fails if and only if there is none. -/
theorem scan_one_none_iff {b : Bitmap} :
    b.scan 0 1 false = none ↔ ∀ i < b.bitCnt, b.bits i = true := by
  constructor
  · intro h i hi
    unfold scan at h
    rw [if_pos (by omega), List.find?_eq_none] at h
    have hno := h i (List.mem_range'_1.2 ⟨Nat.zero_le _, by omega⟩)
    simpa using hno
  · intro h
    cases hscan : b.scan 0 1 false with
    | none => rfl
    | some i =>
      obtain ⟨hlt, hclear, -⟩ := scan_one_some hscan
      rw [h i hlt] at hclear
      cases hclear

/-- The free bits. -/
def free (b : Bitmap) : Finset ℕ := (Finset.range b.bitCnt).filter fun i => b.bits i = false

theorem mem_free {b : Bitmap} {i : ℕ} : i ∈ b.free ↔ i < b.bitCnt ∧ b.bits i = false := by
  rw [free, Finset.mem_filter, Finset.mem_range]

/-- Marking a free bit takes it from the free ones. -/
theorem free_setMultiple_one (b : Bitmap) (i : ℕ) :
    (b.setMultiple i 1 true).free = b.free.erase i := by
  ext j
  rw [Finset.mem_erase, mem_free, mem_free, bits_setMultiple_one, bitCnt_setMultiple]
  by_cases hj : j = i
  · simp [hj]
  · simp [hj]

/-- The bitmap after `n` scans for one free bit that each marked what they found. -/
def taken (b : Bitmap) : ℕ → Bitmap
  | 0 => b
  | n + 1 =>
    match (b.taken n).scan 0 1 false with
    | some i => (b.taken n).setMultiple i 1 true
    | none => b.taken n

/-- The bit that the scan after `n` such scans finds. -/
def nth (b : Bitmap) (n : ℕ) : Option ℕ := (b.taken n).scan 0 1 false

theorem taken_succ {b : Bitmap} {n i : ℕ} (h : b.nth n = some i) :
    b.taken (n + 1) = (b.taken n).setMultiple i 1 true := by
  unfold nth at h
  rw [taken, h]

theorem free_taken (b : Bitmap) (n : ℕ) : (b.taken n).free ⊆ b.free := by
  induction n with
  | zero => exact Finset.Subset.refl _
  | succ n ih =>
    unfold taken
    split
    · rw [free_setMultiple_one]
      exact (Finset.erase_subset _ _).trans ih
    · exact ih

theorem nth_mem_free {b : Bitmap} {n i : ℕ} (h : b.nth n = some i) : i ∈ b.free := by
  obtain ⟨hlt, hbit, -⟩ := scan_one_some h
  exact b.free_taken n (mem_free.2 ⟨hlt, hbit⟩)

theorem taken_taken (b : Bitmap) (n m : ℕ) : (b.taken n).taken m = b.taken (n + m) := by
  induction m with
  | zero => rfl
  | succ m ih => rw [taken, ih, ← Nat.add_assoc, taken]

theorem nth_taken (b : Bitmap) (n m : ℕ) : (b.taken n).nth m = b.nth (n + m) := by
  rw [nth, taken_taken, nth]

/-- Marking a bit and taking the mark back. -/
theorem setMultiple_undo (b : Bitmap) {i : ℕ} (h : b.bits i = false) :
    (b.setMultiple i 1 true).setMultiple i 1 false = b := by
  obtain ⟨bitCnt, bits, hlt⟩ := b
  unfold setMultiple
  congr 1
  funext j
  split_ifs with hj
  · obtain rfl : j = i := by omega
    exact h.symm
  · exact if_neg hj

/-! ### Groups of bits -/

section Groups

variable {b : Bitmap} {cnt i : ℕ}

/-- The bit is set. -/
def Set (b : Bitmap) (i : ℕ) : Prop := b.bits i = true

theorem not_set : ¬b.Set i ↔ b.bits i = false := Bool.not_eq_true _ ▸ Iff.rfl

/-- The group of `cnt` bits at `i` is clear. -/
theorem not_contains (hi : i + cnt ≤ b.bitCnt) :
    (!b.contains i cnt true) = true ↔ Fits b.Set b.bitCnt ⟨i, cnt⟩ := by
  unfold contains
  rw [Bool.not_eq_true', List.any_eq_false]
  constructor
  · refine fun h => ⟨hi, fun k hk => ?_⟩
    have hbit := h (k - i) (List.mem_range.2 (by have := hk.1; have := hk.2; dsimp only at *; omega))
    rw [Nat.add_sub_cancel' hk.1] at hbit
    simpa [Set] using hbit
  · rintro ⟨-, h⟩ k hk
    have hbit := h (i + k) ⟨Nat.le_add_right _ _, Nat.add_lt_add_left (List.mem_range.1 hk) _⟩
    simpa [Set] using hbit

/-- **`bitmap_scan` finds the lowest group that is clear.** -/
theorem scan_some (h : b.scan 0 cnt false = some i) : FirstFit b.Set b.bitCnt ⟨i, cnt⟩ := by
  unfold scan at h
  split_ifs at h with hcnt
  rw [List.find?_eq_some_iff_getElem] at h
  obtain ⟨hclear, k, hk, hget, hlow⟩ := h
  rw [List.getElem_range'] at hget
  rw [List.length_range'] at hk
  obtain rfl : k = i := by omega
  refine ⟨(not_contains (by omega)).1 hclear, fun j hj hfits => ?_⟩
  have hj' := hlow j hj
  rw [List.getElem_range'] at hj'
  have hjfits : (!b.contains j cnt true) = true := (not_contains hfits.1).2 hfits
  rw [Nat.zero_add, Nat.one_mul, Bool.not_false, hjfits] at hj'
  exact Bool.false_ne_true hj'

/-- **`bitmap_scan` fails only when there is none.** -/
theorem scan_none (h : b.scan 0 cnt false = none) : ∀ j, ¬Fits b.Set b.bitCnt ⟨j, cnt⟩ := by
  intro j hfits
  have hj : j + cnt ≤ b.bitCnt := hfits.1
  unfold scan at h
  rw [if_pos (by omega), List.find?_eq_none] at h
  exact h j (List.mem_range'_1.2 ⟨Nat.zero_le _, by omega⟩) ((not_contains hj).2 hfits)

/-- Setting the bits of a group. -/
theorem set_setMultiple_true (k : ℕ) :
    (b.setMultiple i cnt true).Set k ↔ b.Set k ∨ (⟨i, cnt⟩ : Extent).Covers k := by
  unfold Set setMultiple Extent.Covers
  dsimp only
  split_ifs with hk
  · exact ⟨fun _ => .inr hk, fun _ => rfl⟩
  · exact ⟨.inl, fun h => h.resolve_right hk⟩

/-- Clearing the bits of a group. -/
theorem set_setMultiple_false (k : ℕ) :
    (b.setMultiple i cnt false).Set k ↔ b.Set k ∧ ¬(⟨i, cnt⟩ : Extent).Covers k := by
  unfold Set setMultiple Extent.Covers
  dsimp only
  split_ifs with hk
  · exact ⟨fun h => h.elim, fun h => absurd hk h.2⟩
  · exact ⟨fun h => ⟨h, hk⟩, fun h => h.1⟩

/-- Flipping a group that was clear, and flipping it back. -/
theorem setMultiple_restore (h : Fits b.Set b.bitCnt ⟨i, cnt⟩) :
    (b.setMultiple i cnt true).setMultiple i cnt false = b := by
  obtain ⟨bitCnt, bits, hlt⟩ := b
  unfold setMultiple
  congr 1
  funext k
  split_ifs with hk
  · exact (not_set.1 (h.2 k hk)).symm
  · exact if_neg hk

/-- A group whose bits are all set. -/
theorem all_of_set (h : ∀ k, (⟨i, cnt⟩ : Extent).Covers k → b.Set k) : b.all i cnt = true := by
  unfold all contains
  rw [Bool.not_eq_true', List.any_eq_false]
  intro k hk
  have hset := h (i + k) ⟨Nat.le_add_right _ _, Nat.add_lt_add_left (List.mem_range.1 hk) _⟩
  rw [hset]
  decide

end Groups

end Bitmap

end Filesys
end CS162

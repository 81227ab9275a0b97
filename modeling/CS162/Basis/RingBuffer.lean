/-
# Ring buffers

A queue kept in a circle of `n` places: what is new goes to `head`, what is old leaves at `tail`.
Where they meet the queue is empty, so one place stays free and `n - 1` are in use at most.

`contents` is the list of what is queued, oldest first.  Adding appends to it (`contents_add`) and
removing takes its first element (`contents_remove`).
-/

import Mathlib.Data.Fin.Basic
import Mathlib.Data.List.Range
import Mathlib.Logic.Function.Basic

namespace CS162
namespace Basis

/-- A circle of `n` places, with the place to write and the place to read. -/
structure RingBuffer (α : Type) (n : ℕ) where
  buf : Fin n → α
  head : Fin n
  tail : Fin n

namespace RingBuffer

variable {α : Type} {n : ℕ}

/-- The place after `pos`. -/
def next (pos : Fin n) : Fin n := ⟨(pos + 1) % n, Nat.mod_lt _ (by have := pos.isLt; omega)⟩

def Empty (r : RingBuffer α n) : Prop := r.head = r.tail

def Full (r : RingBuffer α n) : Prop := next r.head = r.tail

instance (r : RingBuffer α n) : Decidable r.Empty := inferInstanceAs (Decidable (_ = _))

instance (r : RingBuffer α n) : Decidable r.Full := inferInstanceAs (Decidable (_ = _))

/-- `a` is written at the head. -/
def add (r : RingBuffer α n) (a : α) : RingBuffer α n :=
  { r with buf := Function.update r.buf r.head a, head := next r.head }

/-- The place at the tail is given up. -/
def remove (r : RingBuffer α n) : RingBuffer α n := { r with tail := next r.tail }

/-- The oldest element. -/
def oldest (r : RingBuffer α n) : α := r.buf r.tail

/-- How many places there are from the tail to the head. -/
def used (r : RingBuffer α n) : ℕ := (r.head - r.tail).val

/-- The place `i` after the tail. -/
def place (r : RingBuffer α n) (i : ℕ) : Fin n :=
  ⟨(r.tail + i) % n, Nat.mod_lt _ (by have := r.tail.isLt; omega)⟩

/-- What is queued, oldest first. -/
def contents (r : RingBuffer α n) : List α := (List.range r.used).map fun i => r.buf (r.place i)

theorem length_contents (r : RingBuffer α n) : r.contents.length = r.used := by simp [contents]

theorem used_lt (r : RingBuffer α n) : r.used < n := (r.head - r.tail).isLt

theorem next_val (pos : Fin n) :
    (next pos).val = if pos.val + 1 = n then 0 else pos.val + 1 := by
  have hlt := pos.isLt
  unfold next
  split_ifs with hend
  · rw [Fin.val_mk, hend, Nat.mod_self]
  · rw [Fin.val_mk, Nat.mod_eq_of_lt (by omega)]

theorem place_val (r : RingBuffer α n) {i : ℕ} (hi : i < n) :
    (r.place i).val = if r.tail.val + i < n then r.tail.val + i else r.tail.val + i - n := by
  have hlt := r.tail.isLt
  unfold place
  split_ifs with hwrap
  · rw [Fin.val_mk, Nat.mod_eq_of_lt hwrap]
  · rw [Fin.val_mk, Nat.mod_eq_sub_mod (by omega), Nat.mod_eq_of_lt (by omega)]

theorem used_eq (r : RingBuffer α n) :
    r.used = if r.tail.val ≤ r.head.val then r.head.val - r.tail.val
      else n + r.head.val - r.tail.val := by
  unfold used
  split_ifs with hle
  · exact Fin.coe_sub_iff_le.2 hle
  · exact Fin.coe_sub_iff_lt.2 (Fin.lt_def.2 (Nat.not_le.1 hle))

theorem empty_iff {r : RingBuffer α n} : r.Empty ↔ r.contents = [] := by
  have hhead := r.head.isLt
  have htail := r.tail.isLt
  have hused := r.used_eq
  rw [← List.length_eq_zero_iff, length_contents, Empty, Fin.ext_iff]
  split_ifs at hused <;> omega

theorem full_iff {r : RingBuffer α n} : r.Full ↔ r.contents.length + 1 = n := by
  have hhead := r.head.isLt
  have htail := r.tail.isLt
  have hused := r.used_eq
  rw [length_contents, Full, Fin.ext_iff, next_val]
  split_ifs at hused ⊢ <;> omega

/-- There is room for one less than there are places. -/
theorem length_contents_lt (r : RingBuffer α n) : r.contents.length < n := by
  rw [length_contents]
  exact r.used_lt

theorem used_add {r : RingBuffer α n} (h : ¬r.Full) (a : α) : (r.add a).used = r.used + 1 := by
  have hhead := r.head.isLt
  have htail := r.tail.isLt
  rw [Full, Fin.ext_iff, next_val] at h
  rw [used_eq, used_eq]
  change (if r.tail.val ≤ (next r.head).val then (next r.head).val - r.tail.val
    else n + (next r.head).val - r.tail.val) = _
  rw [next_val]
  split_ifs at h ⊢ <;> omega

theorem used_remove {r : RingBuffer α n} (h : ¬r.Empty) : r.used = r.remove.used + 1 := by
  have hhead := r.head.isLt
  have htail := r.tail.isLt
  rw [Empty, Fin.ext_iff] at h
  rw [used_eq, used_eq]
  change _ = (if (next r.tail).val ≤ r.head.val then r.head.val - (next r.tail).val
    else n + r.head.val - (next r.tail).val) + 1
  rw [next_val]
  split_ifs <;> omega

/-- The place for the next element is the first that is free. -/
theorem place_used (r : RingBuffer α n) : r.place r.used = r.head := by
  have hhead := r.head.isLt
  have htail := r.tail.isLt
  have hused := r.used_eq
  refine Fin.ext ?_
  rw [place_val r r.used_lt]
  split_ifs at hused ⊢ <;> omega

theorem place_ne_head {r : RingBuffer α n} {i : ℕ} (hi : i < r.used) : r.place i ≠ r.head := by
  have hhead := r.head.isLt
  have htail := r.tail.isLt
  have hused := r.used_eq
  have hlt := r.used_lt
  rw [Ne, Fin.ext_iff, place_val r (by omega)]
  split_ifs at hused ⊢ <;> omega

theorem place_zero (r : RingBuffer α n) : r.place 0 = r.tail := by
  have htail := r.tail.isLt
  refine Fin.ext ?_
  rw [place_val r (by omega), Nat.add_zero, if_pos htail]

theorem place_remove {r : RingBuffer α n} {i : ℕ} (hi : i + 1 < n) :
    r.remove.place i = r.place (i + 1) := by
  have htail := r.tail.isLt
  refine Fin.ext ?_
  rw [place_val _ (by omega), place_val _ hi]
  change (if (next r.tail).val + i < n then (next r.tail).val + i
    else (next r.tail).val + i - n) = _
  rw [next_val]
  split_ifs <;> omega

/-- **What is added comes last.** -/
theorem contents_add {r : RingBuffer α n} (h : ¬r.Full) (a : α) :
    (r.add a).contents = r.contents ++ [a] := by
  unfold contents
  rw [used_add h, List.range_succ, List.map_append, List.map_singleton]
  congr 1
  · refine List.map_congr_left fun i hi => ?_
    exact Function.update_of_ne (place_ne_head (List.mem_range.1 hi)) _ _
  · have hnew : (r.add a).buf r.head = a := by simp [add]
    rw [show (r.add a).place r.used = r.head from r.place_used, hnew]

/-- **What is removed came first.** -/
theorem contents_remove {r : RingBuffer α n} (h : ¬r.Empty) :
    r.contents = r.oldest :: r.remove.contents := by
  have hused := used_remove h
  unfold contents
  rw [hused, List.range_succ_eq_map, List.map_cons, List.map_map, place_zero]
  refine congrArg (r.oldest :: ·) (List.map_congr_left fun i hi => ?_)
  have hlt := r.used_lt
  have hi := List.mem_range.1 hi
  rw [place_remove (by omega)]
  rfl

end RingBuffer
end Basis
end CS162

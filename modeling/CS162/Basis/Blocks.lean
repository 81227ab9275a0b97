/-
# An array kept in blocks

An array of entries is a function on indices.  `overwrite f off xs` is the array
with the entries from `off` on replaced by those of `xs`, and `run f off len` the
`len` entries from `off` on.

Cut into blocks of `n` entries, entry `j` is entry `j % n` of block `j / n`
(`entry`).  Slices of one block are runs of the array and copying into one block
overwrites a run of it, so an array can be read and written block by block.
-/

import Mathlib.Algebra.GroupWithZero.Nat
import Mathlib.Data.Nat.Basic
import Mathlib.Logic.Function.Basic
import Mathlib.Tactic.Common
import CS162.Basis.Copy

namespace CS162
namespace Basis

variable {α : Type}

/-! ### Arrays -/

/-- Overwrite the entries from `off` on by those of `xs`. -/
def overwrite (f : ℕ → α) (off : ℕ) (xs : List α) : ℕ → α := fun j =>
  if off ≤ j then (xs[j - off]?).getD (f j) else f j

/-- The `len` entries from `off` on. -/
def run (f : ℕ → α) (off len : ℕ) : List α := (List.range' off len).map f

theorem overwrite_inside (f : ℕ → α) {off : ℕ} {xs : List α} {j : ℕ} (h : off ≤ j)
    (h' : j - off < xs.length) : overwrite f off xs j = xs[j - off] := by
  rw [overwrite, if_pos h, List.getElem?_eq_getElem h', Option.getD_some]

theorem overwrite_outside (f : ℕ → α) {off : ℕ} {xs : List α} {j : ℕ}
    (h : j < off ∨ off + xs.length ≤ j) : overwrite f off xs j = f j := by
  unfold overwrite
  split_ifs with hj
  · rw [List.getElem?_eq_none (by omega), Option.getD_none]
  · rfl

@[simp] theorem overwrite_nil (f : ℕ → α) (off : ℕ) : overwrite f off [] = f := by
  funext j
  simp [overwrite]

/-- Overwriting depends on the array at the index only. -/
theorem overwrite_congr {f g : ℕ → α} {off : ℕ} {xs : List α} {j : ℕ} (h : f j = g j) :
    overwrite f off xs j = overwrite g off xs j := by
  unfold overwrite
  rw [h]

/-- **Two runs that follow each other.** -/
theorem overwrite_append (f : ℕ → α) (off : ℕ) (xs ys : List α) :
    overwrite (overwrite f off xs) (off + xs.length) ys = overwrite f off (xs ++ ys) := by
  funext j
  unfold overwrite
  by_cases hj : off ≤ j
  · rw [if_pos hj]
    by_cases hj' : off + xs.length ≤ j
    · rw [if_pos hj', if_pos hj, List.getElem?_append_right (by omega),
        List.getElem?_eq_none (l := xs) (by omega), Option.getD_none, Nat.sub_sub]
    · rw [if_neg hj', if_pos hj, List.getElem?_append_left (by omega)]
  · rw [if_neg hj, if_neg (by omega), if_neg hj]

@[simp] theorem length_run (f : ℕ → α) (off len : ℕ) : (run f off len).length = len := by
  simp [run]

@[simp] theorem run_zero (f : ℕ → α) (off : ℕ) : run f off 0 = [] := rfl

theorem getElem_run (f : ℕ → α) {off len k : ℕ} (h : k < (run f off len).length) :
    (run f off len)[k] = f (off + k) := by
  simp [run]

theorem run_add (f : ℕ → α) (off m k : ℕ) : run f off (m + k) = run f off m ++ run f (off + m) k := by
  rw [run, run, run, ← List.map_append, List.range'_append_1]

theorem run_congr {f g : ℕ → α} {off len : ℕ} (h : ∀ j, off ≤ j → j < off + len → f j = g j) :
    run f off len = run g off len := by
  refine List.map_congr_left fun j hj => ?_
  obtain ⟨hle, hlt⟩ := List.mem_range'_1.1 hj
  exact h j hle hlt

/-- **What was written is read back.** -/
theorem run_overwrite (f : ℕ → α) (off : ℕ) (xs : List α) :
    run (overwrite f off xs) off xs.length = xs := by
  refine List.ext_getElem (length_run _ _ _) fun k hk hx => ?_
  rw [getElem_run, overwrite_inside _ (Nat.le_add_right _ _) (by simpa using hx)]
  simp

/-- A run of the first `len` entries. -/
theorem take_drop_run (f : ℕ → α) (len off k : ℕ) :
    ((run f 0 len).drop off).take k = run f off (min k (len - off)) := by
  refine List.ext_getElem (by simp) fun i hi hi' => ?_
  rw [List.getElem_take, List.getElem_drop, getElem_run, getElem_run, Nat.zero_add]

/-! ### Blocks -/

variable {n : ℕ} [NeZero n]

/-- Entry `j` of the array cut into `blocks`. -/
def entry (blocks : ℕ → Fin n → α) : ℕ → α := fun j => blocks (j / n) (Fin.ofNat n j)

theorem entry_congr {blocks blocks' : ℕ → Fin n → α} {j : ℕ}
    (h : blocks (j / n) = blocks' (j / n)) : entry blocks j = entry blocks' j :=
  congrFun h _

/-- **A slice of a block is a run of the array.** -/
theorem slice_block (blocks : ℕ → Fin n → α) {off len : ℕ} (h : off % n + len ≤ n) :
    slice (blocks (off / n)) (off % n) len = run (entry blocks) off len := by
  refine List.ext_getElem (by rw [length_slice _ h, length_run]) fun k hk hk' => ?_
  rw [length_slice _ h] at hk
  have hpos : 0 < n := Nat.pos_of_neZero n
  have hoff := Nat.div_add_mod off n
  have hsum : off + k = off % n + k + n * (off / n) := by omega
  have hdiv : (off + k) / n = off / n := by
    rw [hsum, Nat.add_mul_div_left _ _ hpos, Nat.div_eq_of_lt (by omega), Nat.zero_add]
  have hmod : (off + k) % n = off % n + k := by
    rw [hsum, Nat.add_mul_mod_self_left, Nat.mod_eq_of_lt (by omega)]
  rw [getElem_slice _ _ (by omega), getElem_run, entry, hdiv]
  exact congrArg _ (Fin.ext hmod.symm)

/-- **Copying into a block overwrites a run of the array.** -/
theorem entry_copyInto (blocks : ℕ → Fin n → α) {off : ℕ} {xs : List α}
    (h : off % n + xs.length ≤ n) :
    entry (Function.update blocks (off / n) (copyInto (blocks (off / n)) (off % n) xs)) =
      overwrite (entry blocks) off xs := by
  funext j
  have hoff := Nat.div_add_mod off n
  have hj := Nat.div_add_mod j n
  have hjn : j % n < n := Nat.mod_lt _ (Nat.pos_of_neZero n)
  have hval : (Fin.ofNat n j).val = j % n := rfl
  by_cases hdiv : j / n = off / n
  · have hsub : j % n - off % n = j - off := by
      rw [hdiv] at hj
      omega
    have hle : off % n ≤ j % n ↔ off ≤ j := by
      rw [hdiv] at hj
      omega
    rw [entry, hdiv, Function.update_self]
    unfold copyInto overwrite entry
    rw [hval, hsub, hdiv]
    simp only [hle]
  · rw [entry, Function.update_of_ne hdiv, overwrite_outside]
    · rfl
    · rcases Nat.lt_or_gt_of_ne hdiv with hlt | hgt
      · have := Nat.mul_le_mul_left n hlt
        rw [Nat.mul_succ] at this
        omega
      · have := Nat.mul_le_mul_left n hgt
        rw [Nat.mul_succ] at this
        omega

end Basis
end CS162

/-
# Copying a run of entries into a fixed-size block

A block of `n` entries is a function on `Fin n`.  `copyInto d off xs` is
`memcpy (d + off, xs, |xs|)` and `slice d off len` is what a `memcpy` of `len`
entries out of `d + off` delivers.  Inside the copied run the result holds the
run, outside it holds what was there; copying back what a slice delivered
changes nothing.
-/

import Mathlib.Data.List.OfFn

namespace CS162
namespace Basis

variable {α : Type} {n : ℕ}

/-- Overwrite the entries of `d` from `off` on by the entries of `xs`. -/
def copyInto (d : Fin n → α) (off : ℕ) (xs : List α) : Fin n → α := fun j =>
  if off ≤ j.val then (xs[j.val - off]?).getD (d j) else d j

/-- The `len` entries of `d` from `off` on. -/
def slice (d : Fin n → α) (off len : ℕ) : List α :=
  ((List.ofFn d).drop off).take len

theorem copyInto_inside (d : Fin n → α) {off : ℕ} {xs : List α} {j : Fin n} (h : off ≤ j.val)
    (h' : j.val - off < xs.length) : copyInto d off xs j = xs[j.val - off] := by
  rw [copyInto, if_pos h, List.getElem?_eq_getElem h', Option.getD_some]

theorem copyInto_outside (d : Fin n → α) {off : ℕ} {xs : List α} {j : Fin n}
    (h : j.val < off ∨ off + xs.length ≤ j.val) : copyInto d off xs j = d j := by
  unfold copyInto
  split_ifs with hj
  · rw [List.getElem?_eq_none (by omega), Option.getD_none]
  · rfl

theorem getElem?_slice (d : Fin n → α) (off len k : ℕ) :
    (slice d off len)[k]? = if h : k < len ∧ off + k < n then some (d ⟨off + k, h.2⟩) else none := by
  rw [slice, List.getElem?_take, List.getElem?_drop]
  by_cases hk : k < len <;> by_cases hn : off + k < n <;> simp [hk, hn]

theorem length_slice (d : Fin n → α) {off len : ℕ} (h : off + len ≤ n) :
    (slice d off len).length = len := by
  rw [slice, List.length_take, List.length_drop, List.length_ofFn]
  omega

theorem getElem_slice (d : Fin n → α) {off len k : ℕ} (hk : k < (slice d off len).length)
    (hn : off + k < n) : (slice d off len)[k] = d ⟨off + k, hn⟩ := by
  have h := getElem?_slice d off len k
  rw [List.getElem?_eq_getElem hk] at h
  split_ifs at h
  exact Option.some.inj h

/-- **Copying back what was read changes nothing.** -/
theorem copyInto_slice (d : Fin n → α) (off len : ℕ) :
    copyInto d off (slice d off len) = d := by
  funext j
  unfold copyInto
  split_ifs with hj
  · rw [getElem?_slice]
    split_ifs with h
    · simp [Nat.add_sub_cancel' hj]
    · rfl
  · rfl

/-- A slice from where a run was copied to starts with the run. -/
theorem slice_copyInto (d : Fin n → α) {off len : ℕ} {xs : List α} (hxs : xs.length ≤ len)
    (hlen : off + len ≤ n) :
    slice (copyInto d off xs) off len = xs ++ slice d (off + xs.length) (len - xs.length) := by
  refine List.ext_getElem? fun k => ?_
  rw [getElem?_slice]
  rcases Nat.lt_or_ge k xs.length with hk | hk
  · rw [List.getElem?_append_left hk, List.getElem?_eq_getElem hk,
      dif_pos ⟨by omega, by omega⟩, copyInto_inside d (by simp) (by simpa using hk)]
    simp
  · rw [List.getElem?_append_right hk, getElem?_slice]
    split_ifs
    · rw [copyInto_outside d (.inr (by simpa using hk))]
      congr 2
      simp only [Fin.mk.injEq]
      omega
    · omega
    · omega
    · rfl

/-- A slice beside a run that was copied is as it was. -/
theorem slice_copyInto_of_disjoint (d : Fin n → α) {off off' len : ℕ} {xs : List α}
    (h : off' + len ≤ off ∨ off + xs.length ≤ off') :
    slice (copyInto d off xs) off' len = slice d off' len := by
  refine List.ext_getElem? fun k => ?_
  rw [getElem?_slice, getElem?_slice]
  split_ifs with hk
  · rw [copyInto_outside d (by dsimp only; omega)]
  · rfl

/-- A slice of the whole block is the block. -/
theorem slice_all (d : Fin n → α) : slice d 0 n = List.ofFn d := by
  rw [slice, List.drop_zero, List.take_of_length_le (by simp)]

end Basis
end CS162

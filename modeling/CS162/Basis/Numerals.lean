/-
# Numerals of a fixed width

Numbers below `b ^ w` as `w` digits in base `b`, the highest first, and what a list of digits is
worth.  A numeral is worth its number (`valueFrom_numeral`), and every part of it that is read from
the left is worth no more (`le_valueFrom`).
-/

import Mathlib.Data.Nat.Digits.Lemmas

namespace CS162
namespace Basis

/-- What the digits `ds`, highest first, are worth after `v`. -/
def valueFrom (b v : ℕ) (ds : List ℕ) : ℕ := ds.foldl (fun v d => b * v + d) v

/-- The digits of `n`, with zeros in front where there are less than `w`. -/
def numeral (b w n : ℕ) : List ℕ :=
  List.replicate (w - (b.digits n).length) 0 ++ (b.digits n).reverse

theorem valueFrom_replicate (b k : ℕ) : valueFrom b 0 (List.replicate k 0) = 0 := by
  induction k with
  | zero => rfl
  | succ k ih => exact ih

theorem valueFrom_reverse (b : ℕ) (ds : List ℕ) : valueFrom b 0 ds.reverse = Nat.ofDigits b ds := by
  unfold valueFrom
  rw [List.foldl_reverse, Nat.ofDigits_eq_foldr]
  congr 1
  funext d v
  exact Nat.add_comm _ _

/-- **A numeral is worth its number.** -/
theorem valueFrom_numeral (b w n : ℕ) : valueFrom b 0 (numeral b w n) = n := by
  unfold numeral valueFrom
  rw [List.foldl_append]
  have hzero := valueFrom_replicate b (w - (b.digits n).length)
  unfold valueFrom at hzero
  rw [hzero]
  exact (valueFrom_reverse b _).trans (Nat.ofDigits_digits b n)

/-- What is read of a numeral is worth no more than the whole. -/
theorem le_valueFrom {b : ℕ} (hb : 0 < b) (v : ℕ) (ds : List ℕ) : v ≤ valueFrom b v ds := by
  induction ds generalizing v with
  | nil => exact Nat.le_refl v
  | cons d ds ih =>
    calc v ≤ b * v := Nat.le_mul_of_pos_left v hb
      _ ≤ b * v + d := Nat.le_add_right _ _
      _ ≤ valueFrom b v (d :: ds) := ih _

theorem length_numeral {b w n : ℕ} (hb : 1 < b) (h : n < b ^ w) : (numeral b w n).length = w := by
  have hle : (b.digits n).length ≤ w := (Nat.digits_length_le_iff hb n).2 h
  rw [numeral, List.length_append, List.length_replicate, List.length_reverse]
  exact Nat.sub_add_cancel hle

theorem numeral_lt {b w n d : ℕ} (hb : 1 < b) (h : d ∈ numeral b w n) : d < b := by
  rcases List.mem_append.1 h with hd | hd
  · rw [List.eq_of_mem_replicate hd]
    exact Nat.zero_lt_of_lt hb
  · exact Nat.digits_lt_base hb (List.mem_reverse.1 hd)

end Basis
end CS162

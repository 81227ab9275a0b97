/-
# Numbers of two bit fields

`2 ^ n * a + f` with `f < 2 ^ n` is `f` in the lowest `n` bits and `a` above them.  `&` and `|`
work on each of the two by itself.
-/

import Mathlib.Algebra.Group.Nat.Defs
import Mathlib.Tactic.Common

namespace CS162
namespace Basis

variable {n a b f g : ℕ}

theorem field_div (hf : f < 2 ^ n) : (2 ^ n * a + f) / 2 ^ n = a := by
  rw [Nat.mul_add_div (Nat.two_pow_pos n), Nat.div_eq_of_lt hf, Nat.add_zero]

theorem field_mod (hf : f < 2 ^ n) : (2 ^ n * a + f) % 2 ^ n = f := by
  rw [Nat.mul_add_mod, Nat.mod_eq_of_lt hf]

/-- **`&` on two fields.** -/
theorem field_and (hf : f < 2 ^ n) (hg : g < 2 ^ n) :
    (2 ^ n * a + f) &&& (2 ^ n * b + g) = 2 ^ n * (a &&& b) + (f &&& g) := by
  rw [← Nat.div_add_mod ((2 ^ n * a + f) &&& (2 ^ n * b + g)) (2 ^ n), Nat.and_div_two_pow,
    Nat.and_mod_two_pow, field_div hf, field_div hg, field_mod hf, field_mod hg]

/-- **`|` on two fields.** -/
theorem field_or (hf : f < 2 ^ n) (hg : g < 2 ^ n) :
    (2 ^ n * a + f) ||| (2 ^ n * b + g) = 2 ^ n * (a ||| b) + (f ||| g) := by
  rw [← Nat.div_add_mod ((2 ^ n * a + f) ||| (2 ^ n * b + g)) (2 ^ n), Nat.or_div_two_pow,
    Nat.or_mod_two_pow, field_div hf, field_div hg, field_mod hf, field_mod hg]

/-- A field that is cut out by its mask. -/
theorem field_and_low (hf : f < 2 ^ n) (hg : g < 2 ^ n) : (2 ^ n * a + f) &&& g = f &&& g := by
  have hfields := field_and (a := a) (b := 0) hf hg
  rwa [Nat.mul_zero, Nat.zero_add, Nat.and_zero, Nat.mul_zero, Nat.zero_add] at hfields

theorem field_or_low (hf : f < 2 ^ n) (hg : g < 2 ^ n) :
    (2 ^ n * a + f) ||| g = 2 ^ n * a + (f ||| g) := by
  have hfields := field_or (a := a) (b := 0) hf hg
  rwa [Nat.mul_zero, Nat.zero_add, Nat.or_zero] at hfields

/-- A mask of `k` bits above the lower field keeps the upper one. -/
theorem field_and_high {k : ℕ} (ha : a < 2 ^ k) (hf : f < 2 ^ n) (hg : g < 2 ^ n) :
    (2 ^ n * a + f) &&& (2 ^ n * (2 ^ k - 1) + g) = 2 ^ n * a + (f &&& g) := by
  rw [field_and hf hg, Nat.and_two_pow_sub_one_eq_mod, Nat.mod_eq_of_lt ha]

end Basis
end CS162

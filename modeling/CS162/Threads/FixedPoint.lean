/-
# Fixed-point numbers

`projects1-3/src/threads/fixed-point.h`, lines 7-44: `fix_int`, `fix_round` and
`fix_trunc`.

A number has 16 fractional bits in an `int` of 32, so there are 15 bits and a sign left
for the integer, and not the 16 that `FIX_MAX_INT` speaks of.  `fix_round` adds a half
and divides, which rounds towards zero: below `-1/2` it is off by one wherever the sum is
not an integer (`fixedPoint_exact_iff`).
-/

import Mathlib.Algebra.Order.Field.Basic
import Mathlib.Data.Rat.Cast.Order
import Mathlib.Tactic.Linarith
import Mathlib.Tactic.Ring

namespace CS162
namespace Threads

/-- `FIX_F`. -/
def fixF : Int32 := 65536

/-- `FIX_MAX_INT`. -/
def fixMaxInt : Int32 := 65535

/-- `FIX_MIN_INT`. -/
def fixMinInt : Int32 := -fixMaxInt

/-- `fixed_point_t`. -/
structure FixedPoint where
  f : Int32
deriving DecidableEq

/-- `fix_int`. -/
def fixInt (n : Int32) : Option FixedPoint :=
  if fixMinInt ≤ n ∧ n ≤ fixMaxInt then some ⟨n * fixF⟩ else none

/-- `fix_round`. -/
def fixRound (x : FixedPoint) : Int32 := (x.f + fixF / 2) / fixF

/-- `fix_trunc`. -/
def fixTrunc (x : FixedPoint) : Int32 := x.f / fixF

/-- The number that is meant. -/
def FixedPoint.value (x : FixedPoint) : ℚ := x.f.toInt / 65536

/-- The conversions of an integer that `fix_int` admits are exact. -/
def ConvertsExactly (n : Int32) : Prop :=
  ∀ x, fixInt n = some x → (-2 ^ 31 ≤ n.toInt * 65536 ∧ n.toInt * 65536 < 2 ^ 31) ∧
    fixTrunc x = n ∧ fixRound x = n

/-- `fix_round` returns an integer nearest to the number. -/
def RoundsToNearest (x : FixedPoint) : Prop :=
  |x.value| ≤ (fixMaxInt.toInt - 1 : ℤ) → |((fixRound x).toInt : ℚ) - x.value| ≤ 1 / 2

/-! ### The operations as operations on integers -/

theorem tdiv_fixF (z : ℤ) : z.tdiv 65536 = if 0 ≤ z then z / 65536 else -(-z / 65536) := by
  split_ifs with h
  · exact Int.tdiv_eq_ediv_of_nonneg h
  · obtain ⟨k, hk⟩ := Int.eq_ofNat_of_zero_le (show 0 ≤ -z by omega)
    obtain rfl : z = -(k : ℤ) := by omega
    rw [Int.neg_tdiv, Int.tdiv_eq_ediv_of_nonneg (Int.natCast_nonneg k), neg_neg]

/-- Division by `FIX_F` cuts the fraction off. -/
theorem toInt_div_fixF (z : Int32) :
    (z / fixF).toInt = if 0 ≤ z.toInt then z.toInt / 65536 else -(-z.toInt / 65536) := by
  rw [Int32.toInt_div_of_ne_right _ _ (by decide)]
  exact tdiv_fixF z.toInt

/-- What adding a half gives: the sum, where it is an `int`. -/
theorem toInt_add_half (x : FixedPoint) :
    (x.f + fixF / 2).toInt =
      if x.f.toInt < 2 ^ 31 - 32768 then x.f.toInt + 32768 else x.f.toInt + 32768 - 2 ^ 32 := by
  have hlo := x.f.le_toInt
  have hhi := x.f.toInt_lt
  have hhalf : (fixF / 2).toInt = 32768 := by decide
  rw [Int32.toInt_add, hhalf, Int.bmod_def]
  split_ifs <;> omega

/-- The product in `fix_int`: a multiple of `FIX_F` by an integer of 16 bits. -/
theorem toInt_mul_fixF (n : Int32) :
    (n * fixF).toInt = ((n.toInt + 32768) % 65536 - 32768) * 65536 := by
  have hF : fixF.toInt = 65536 := by decide
  rw [Int32.toInt_mul, hF, Int.bmod_def]
  split_ifs <;> omega

/-! ### Integers -/

theorem fixInt_eq_some {n : Int32} {x : FixedPoint} :
    fixInt n = some x ↔ (-65535 ≤ n.toInt ∧ n.toInt ≤ 65535) ∧ x.f = n * fixF := by
  have hmin : fixMinInt.toInt = -65535 := by decide
  have hmax : fixMaxInt.toInt = 65535 := by decide
  unfold fixInt
  simp only [Int32.le_iff_toInt_le, hmin, hmax]
  split_ifs with h
  · rw [Option.some.injEq, and_iff_right h]
    exact ⟨fun he => he ▸ rfl, fun he => by rw [← he]⟩
  · exact iff_of_false (by simp) fun hand => h hand.1

/-- **The conversions are exact** from `0` to `2 ^ 15 - 1`. -/
theorem convertsExactly_iff (n : Int32) : ConvertsExactly n ↔
    (-65535 ≤ n.toInt → n.toInt ≤ 65535 → 0 ≤ n.toInt ∧ n.toInt ≤ 32767) := by
  -- the integer that 16 bits leave of `n`
  have hf := toInt_mul_fixF n
  have htrunc : (fixTrunc ⟨n * fixF⟩).toInt = (n.toInt + 32768) % 65536 - 32768 := by
    unfold fixTrunc
    rw [toInt_div_fixF, hf]
    split_ifs <;> omega
  have hround : (fixRound ⟨n * fixF⟩).toInt =
      if 0 ≤ (n.toInt + 32768) % 65536 - 32768 then (n.toInt + 32768) % 65536 - 32768
      else (n.toInt + 32768) % 65536 - 32767 := by
    unfold fixRound
    rw [toInt_div_fixF, toInt_add_half, hf]
    split_ifs <;> omega
  have hall : ConvertsExactly n ↔ (-65535 ≤ n.toInt ∧ n.toInt ≤ 65535 →
      (-2 ^ 31 ≤ n.toInt * 65536 ∧ n.toInt * 65536 < 2 ^ 31) ∧
        (fixTrunc ⟨n * fixF⟩).toInt = n.toInt ∧ (fixRound ⟨n * fixF⟩).toInt = n.toInt) := by
    unfold ConvertsExactly
    simp only [fixInt_eq_some, Int32.toInt_inj]
    constructor
    · exact fun h hn => h ⟨n * fixF⟩ ⟨hn, rfl⟩
    · rintro h ⟨f⟩ ⟨hn, rfl⟩
      exact h hn
  rw [hall, htrunc, hround]
  constructor
  · intro h hlo hhi
    obtain ⟨hfits, -, hr⟩ := h ⟨hlo, hhi⟩
    split_ifs at hr <;> omega
  · rintro h ⟨hlo, hhi⟩
    have := h hlo hhi
    refine ⟨by omega, by omega, ?_⟩
    split_ifs <;> omega

/-! ### Rounding -/

/-- Nearest, in integers. -/
theorem abs_sub_value_le (x : FixedPoint) (r : ℤ) :
    |(r : ℚ) - x.value| ≤ 1 / 2 ↔ -32768 ≤ 65536 * r - x.f.toInt ∧ 65536 * r - x.f.toInt ≤ 32768 := by
  have hscale : (r : ℚ) - x.value = ((65536 * r - x.f.toInt : ℤ) : ℚ) / 65536 := by
    unfold FixedPoint.value
    push_cast
    ring
  rw [hscale, abs_le, le_div_iff₀ (by norm_num), div_le_iff₀ (by norm_num)]
  refine and_congr ?_ ?_
  · rw [show (-(1 / 2) * 65536 : ℚ) = ((-32768 : ℤ) : ℚ) by norm_num]
    exact Int.cast_le
  · rw [show (1 / 2 * 65536 : ℚ) = ((32768 : ℤ) : ℚ) by norm_num]
    exact Int.cast_le

/-- Every number of 32 bits is in the range that is advertised. -/
theorem abs_value_le (x : FixedPoint) : |x.value| ≤ (fixMaxInt.toInt - 1 : ℤ) := by
  have hlo : (-2 ^ 31 : ℚ) ≤ x.f.toInt := by exact_mod_cast x.f.le_toInt
  have hhi : (x.f.toInt : ℚ) < 2 ^ 31 := by exact_mod_cast x.f.toInt_lt
  have hmax : fixMaxInt.toInt - 1 = 65534 := by decide
  unfold FixedPoint.value
  rw [hmax, abs_le, le_div_iff₀ (by norm_num), div_le_iff₀ (by norm_num)]
  constructor
  · norm_num at hlo ⊢
    linarith
  · norm_num at hhi ⊢
    linarith

/-- **Rounding is right** from `-1/2` on until the sum overflows, and below it for halves. -/
theorem roundsToNearest_iff (x : FixedPoint) : RoundsToNearest x ↔
    -32768 ≤ x.f.toInt ∧ x.f.toInt < 2 ^ 31 - 32768 ∨
      x.f.toInt < -32768 ∧ x.f.toInt % 65536 = 32768 := by
  have hlo := x.f.le_toInt
  have hhi := x.f.toInt_lt
  have hround : (fixRound x).toInt = if 0 ≤ (x.f + fixF / 2).toInt then (x.f + fixF / 2).toInt / 65536
      else -(-(x.f + fixF / 2).toInt / 65536) := toInt_div_fixF _
  rw [toInt_add_half] at hround
  unfold RoundsToNearest
  rw [imp_iff_right (abs_value_le x), abs_sub_value_le, hround]
  split_ifs <;> omega

/-- **Fixed-point conversions.**  Those of an integer are exact from `0` to `2 ^ 15 - 1`.  A fixed-point
number is rounded to an integer nearest to it from `-1/2` on, unless adding a half overflows, and
below `-1/2` where it is as far from one integer as from the next. -/
theorem fixedPoint_exact_iff (n : Int32) (x : FixedPoint) :
    (ConvertsExactly n ↔ (-65535 ≤ n.toInt → n.toInt ≤ 65535 → 0 ≤ n.toInt ∧ n.toInt ≤ 32767)) ∧
      (RoundsToNearest x ↔ -32768 ≤ x.f.toInt ∧ x.f.toInt < 2 ^ 31 - 32768 ∨
        x.f.toInt < -32768 ∧ x.f.toInt % 65536 = 32768) :=
  ⟨convertsExactly_iff n, roundsToNearest_iff x⟩

/-- `-1` is rounded to `0`. -/
theorem not_fixedPoint_exact : ¬((∀ n, ConvertsExactly n) ∧ ∀ x, RoundsToNearest x) := by
  rintro ⟨hn, -⟩
  have hround : fixRound ⟨-1 * fixF⟩ ≠ -1 := by decide
  exact hround (hn (-1) ⟨-1 * fixF⟩ rfl).2.2

end Threads
end CS162

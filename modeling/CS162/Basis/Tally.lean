/-
# The number of threads at given program points

`tally p f` is the number of the threads whose program point, `f` of them,
satisfies `p`.  When one thread moves it changes by what that thread stops and
starts to count (`tally_update`), so a counter that threads keep is the tally of
some points as soon as every step changes both alike.
-/

import Mathlib.Algebra.BigOperators.Fin
import Mathlib.Algebra.Order.BigOperators.Group.Finset
import Mathlib.Algebra.Order.Ring.Int

namespace CS162
namespace Basis

variable {T P : Type} [Fintype T]

/-- The number of threads at points that satisfy `p`. -/
def tally (p : P → Bool) (f : T → P) : ℤ := ∑ t, if p (f t) then 1 else 0

/-- **One summand changes.** -/
theorem sum_update {ι M : Type} [DecidableEq ι] [AddCommMonoid M] {l : Finset ι} {i : ι} (hi : i ∈ l)
    (f : ι → P) (g : P → M) (x : P) :
    (∑ j ∈ l, g (Function.update f i x j)) + g (f i) = (∑ j ∈ l, g (f j)) + g x := by
  have hrest : ∑ j ∈ l.erase i, g (Function.update f i x j) = ∑ j ∈ l.erase i, g (f j) :=
    Finset.sum_congr rfl fun j hj => by rw [Function.update_of_ne (Finset.ne_of_mem_erase hj)]
  rw [← Finset.add_sum_erase _ _ hi, ← Finset.add_sum_erase _ _ hi, hrest, Function.update_self,
    add_right_comm, add_comm (g x), add_right_comm]

/-- **One thread moves.** -/
theorem tally_update [DecidableEq T] (p : P → Bool) (f : T → P) (t : T) (x : P) :
    tally p (Function.update f t x) =
      tally p f + (if p x then 1 else 0) - (if p (f t) then 1 else 0) :=
  eq_sub_of_add_eq (sum_update (Finset.mem_univ t) f (fun a => if p a then (1 : ℤ) else 0) x)

theorem tally_nonneg (p : P → Bool) (f : T → P) : 0 ≤ tally p f :=
  Finset.sum_nonneg fun t _ => by split_ifs <;> omega

/-- A tally is positive when there is a thread to count. -/
theorem tally_pos_iff {p : P → Bool} {f : T → P} : 0 < tally p f ↔ ∃ t, p (f t) = true := by
  constructor
  · intro h
    by_contra hno
    rw [not_exists] at hno
    exact absurd h (by simp [tally, hno])
  · rintro ⟨t, ht⟩
    calc (0 : ℤ) < if p (f t) then 1 else 0 := by simp [ht]
      _ ≤ tally p f := Finset.single_le_sum (f := fun u => if p (f u) then (1 : ℤ) else 0)
          (fun u _ => by split_ifs <;> omega) (Finset.mem_univ t)

end Basis
end CS162

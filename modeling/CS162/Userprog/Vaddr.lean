/-
# Virtual addresses

`projects1-3/src/threads/vaddr.h`, `threads/loader.h`, line 13, and
`lib/round.h`.

Addresses and sizes are 32 bits wide.  The lemmas give what the macros compute
as natural numbers, where nothing wraps.
-/

import Mathlib.Algebra.Group.Int.Defs
import Mathlib.Algebra.Group.Nat.Defs
import Mathlib.Tactic.Common

namespace CS162
namespace Userprog

/-- `PGSIZE`. -/
def pgsize : UInt32 := 4096

/-- `PGMASK`. -/
def pgmask : UInt32 := 0xfff

/-- `PHYS_BASE`. -/
def physBase : UInt32 := 0xc0000000

/-- `pg_ofs`. -/
def pgOfs (va : UInt32) : UInt32 := va &&& pgmask

/-- `pg_no`. -/
def pgNo (va : UInt32) : ℕ := va.toNat / 4096

/-- `is_user_vaddr`. -/
def isUserVaddr (va : UInt32) : Bool := va < physBase

/-- `ROUND_UP`. -/
def roundUp (x step : UInt32) : UInt32 := (x + step - 1) / step * step

/-- A value of 32 bits as an `off_t` or an `int`. -/
def toOff (x : UInt32) : ℤ := if x.toNat < 2 ^ 31 then x.toNat else x.toNat - 2 ^ 32

theorem pgOfs_toNat (va : UInt32) : (pgOfs va).toNat = va.toNat % 4096 := by
  rw [pgOfs, UInt32.toNat_and]
  exact Nat.and_two_pow_sub_one_eq_mod va.toNat 12

/-- The bits that `~PGMASK` keeps. -/
theorem testBit_not_pgmask (i : ℕ) :
    Nat.testBit 0xfffff000 i = (decide (12 ≤ i) && decide (i < 32)) := by
  have hshift : 0xfffff000 = (2 ^ 20 - 1) <<< 12 := rfl
  rw [hshift, Nat.testBit_shiftLeft, Nat.testBit_two_pow_sub_one]
  by_cases hi : 12 ≤ i
  · have hiff : i - 12 < 20 ↔ i < 32 := by omega
    simp [hi, hiff]
  · simp [hi]

/-- `& ~PGMASK` rounds down to a page. -/
theorem and_not_pgmask (va : UInt32) : (va &&& ~~~pgmask).toNat = va.toNat / 4096 * 4096 := by
  have hmask : (~~~pgmask).toNat = 0xfffff000 := rfl
  have hround : va.toNat / 4096 * 4096 = (va.toNat >>> 12) <<< 12 := by
    rw [Nat.shiftRight_eq_div_pow, Nat.shiftLeft_eq]
  rw [UInt32.toNat_and, hmask, hround]
  refine Nat.eq_of_testBit_eq fun i => ?_
  rw [Nat.testBit_and, testBit_not_pgmask, Nat.testBit_shiftLeft, Nat.testBit_shiftRight]
  by_cases hi : 12 ≤ i
  · rw [Nat.add_sub_cancel' hi]
    by_cases hi' : i < 32
    · simp [hi, hi']
    · have hlt : va.toNat < 2 ^ i :=
        Nat.lt_of_lt_of_le va.toNat_lt (Nat.pow_le_pow_right (by omega) (Nat.not_lt.1 hi'))
      simp [Nat.testBit_lt_two_pow hlt]
  · simp [hi]

theorem toOff_of_lt {x : UInt32} (h : x.toNat < 2 ^ 31) : toOff x = x.toNat :=
  if_pos h

end Userprog
end CS162

/-
# Big-endian numbers, and the order of byte strings

`beBytes k n` are the `k` bytes of `n`, the most significant one first, and `ofBE` is the
number that bytes stand for.  Byte strings are in the lexicographic order of their bytes.
-/

import Mathlib.Algebra.Group.Nat.Defs
import Mathlib.Data.List.Lex
import Mathlib.Tactic.Common

namespace CS162
namespace Basis

/-- Bytes are ordered as numbers, and so strings of bytes as words in a dictionary. -/
instance linearOrderByte : LinearOrder UInt8 where
  le_refl := UInt8.le_refl
  le_trans _ _ _ := UInt8.le_trans
  lt_iff_le_not_ge _ _ := by
    rw [UInt8.lt_iff_toNat_lt, UInt8.le_iff_toNat_le, UInt8.le_iff_toNat_le]
    omega
  le_antisymm _ _ := UInt8.le_antisymm
  le_total := UInt8.le_total
  toDecidableLE := inferInstance
  toDecidableEq := inferInstance
  toDecidableLT := inferInstance

/-- Whether a byte is in a string of bytes. -/
instance decidableMemByte (b : UInt8) (bs : List UInt8) : Decidable (b ∈ bs) :=
  inferInstanceAs (Decidable (b ∈ bs))

/-- The last `k` bytes of a number. -/
def beBytes : ℕ → ℕ → List UInt8
  | 0, _ => []
  | k + 1, n => UInt8.ofNat (n / 256 ^ k) :: beBytes k n

/-- The number that bytes stand for. -/
def ofBE : List UInt8 → ℕ
  | [] => 0
  | b :: l => b.toNat * 256 ^ l.length + ofBE l

@[simp] theorem length_beBytes (k n : ℕ) : (beBytes k n).length = k := by
  induction k with
  | zero => rfl
  | succ k ih => rw [beBytes, List.length_cons, ih]

theorem ofBE_lt (l : List UInt8) : ofBE l < 256 ^ l.length := by
  induction l with
  | nil => exact Nat.one_pos
  | cons b l ih =>
    have hb := b.toNat_lt
    have hle : b.toNat * 256 ^ l.length + 256 ^ l.length ≤ 256 ^ (l.length + 1) := by
      rw [← Nat.succ_mul, Nat.pow_succ, Nat.mul_comm (256 ^ l.length)]
      exact Nat.mul_le_mul_right _ hb
    rw [ofBE, List.length_cons]
    omega

theorem ofBE_beBytes (k n : ℕ) : ofBE (beBytes k n) = n % 256 ^ k := by
  induction k with
  | zero => rw [beBytes, ofBE, Nat.pow_zero, Nat.mod_one]
  | succ k ih =>
    have hsplit : n % 256 ^ (k + 1) = n % 256 ^ k + 256 ^ k * (n / 256 ^ k % 256) := by
      rw [Nat.pow_succ, Nat.mod_mul]
    rw [beBytes, ofBE, length_beBytes, ih, UInt8.toNat_ofNat', hsplit, Nat.add_comm, Nat.mul_comm]

/-- **Bytes of a number that fits.** -/
theorem ofBE_beBytes_of_lt {k n : ℕ} (h : n < 256 ^ k) : ofBE (beBytes k n) = n := by
  rw [ofBE_beBytes, Nat.mod_eq_of_lt h]

/-- Strings of one length that stand for one number are one. -/
theorem ofBE_inj {l l' : List UInt8} (hlen : l.length = l'.length) (h : ofBE l = ofBE l') :
    l = l' := by
  induction l generalizing l' with
  | nil => exact (List.length_eq_zero_iff.1 hlen.symm).symm
  | cons b l ih =>
    cases l' with
    | nil => cases hlen
    | cons b' l' =>
      have hlen' : l.length = l'.length := Nat.succ.inj hlen
      have hpos : 0 < 256 ^ l.length := Nat.pow_pos (by decide)
      have hlt := ofBE_lt l
      have hlt' := ofBE_lt l'
      rw [ofBE, ofBE, ← hlen'] at h
      rw [← hlen'] at hlt'
      have hdiv := congrArg (· / 256 ^ l.length) h
      have hmod := congrArg (· % 256 ^ l.length) h
      rw [Nat.add_comm, Nat.add_mul_div_right _ _ hpos, Nat.div_eq_of_lt hlt, Nat.add_comm (_ * _),
        Nat.add_mul_div_right _ _ hpos, Nat.div_eq_of_lt hlt', Nat.zero_add, Nat.zero_add] at hdiv
      rw [Nat.add_comm, Nat.add_mul_mod_self_right, Nat.mod_eq_of_lt hlt, Nat.add_comm (_ * _),
        Nat.add_mul_mod_self_right, Nat.mod_eq_of_lt hlt'] at hmod
      rw [UInt8.toNat_inj.1 hdiv, ih hlen' hmod]

/-- **The number of bytes.** -/
theorem beBytes_ofBE (l : List UInt8) : beBytes l.length (ofBE l) = l := by
  refine ofBE_inj (length_beBytes _ _) ?_
  rw [ofBE_beBytes, Nat.mod_eq_of_lt (ofBE_lt l)]

end Basis
end CS162

/-
# Division of 64-bit integers

`projects1-3/src/lib/arithmetic.c`: what the compiler calls for `/` and `%` of 64-bit integers, on a
processor that divides 64 bits by 32.

`divl` traps where its quotient has more than 32 bits.  For a divisor of more than 32 bits
`udiv64` divides by its 32 highest bits, which gives a quotient that is right or one too large
(`estimate_le`); so it never traps, and is right everywhere (`udiv64_eq`).  The remainder is handed
on in 32 bits and is lost where it has more (`umoddi3_eq_iff`, `moddi3_eq_iff`).
-/

import Mathlib.Tactic.Linarith
import Mathlib.Tactic.Ring

namespace CS162
namespace Lib

/-! ### The functions -/

/-- The instruction `divl`; `none` is a divide error. -/
def divl (n : UInt64) (d : UInt32) : Option UInt32 :=
  if d = 0 ∨ 2 ^ 32 ≤ n.toNat / d.toNat then none else some (UInt32.ofNat (n.toNat / d.toNat))

/-- A statement of `nlz`: `k` zeros are counted and shifted out, if they are there. -/
def shiftOut (mask : UInt32) (k : ℕ) (p : ℕ × UInt32) : ℕ × UInt32 :=
  if p.2 ≤ mask then (p.1 + k, p.2 <<< UInt32.ofNat k) else p

/-- `nlz`. -/
def nlz (x : UInt32) : ℕ :=
  let p := shiftOut 0x0000ffff 16 (0, x)
  let p := shiftOut 0x00ffffff 8 p
  let p := shiftOut 0x0fffffff 4 p
  let p := shiftOut 0x3fffffff 2 p
  if p.2 ≤ 0x7fffffff then p.1 + 1 else p.1

/-- `udiv64`. -/
def udiv64 (n d : UInt64) : Option UInt64 :=
  if d >>> 32 = 0 then do
    let b : UInt64 := (1 : UInt64) <<< 32
    let n1 := (n >>> 32).toUInt32
    let n0 := n.toUInt32
    let d0 := d.toUInt32
    let q ← divl (b * (n1 % d0).toUInt64 + n0.toUInt64) d0
    return q.toUInt64 + b * (n1 / d0).toUInt64
  else if n < d then some 0
  else do
    let d1 := (d >>> 32).toUInt32
    let s := nlz d1
    let q ← divl (n >>> 1) ((d <<< UInt64.ofNat s) >>> 32).toUInt32
    let q := (q >>> UInt32.ofNat (31 - s)).toUInt64
    return if n - (q - 1) * d < d then q - 1 else q

/-- `umod64`, which returns 32 bits. -/
def umod64 (n d : UInt64) : Option UInt32 := do
  let q ← udiv64 n d
  return (n - d * q).toUInt32

/-- The absolute value of a signed number, as an unsigned one. -/
def absolute (n : Int64) : UInt64 := if 0 ≤ n then n.toUInt64 else -n.toUInt64

/-- `sdiv64`. -/
def sdiv64 (n d : Int64) : Option Int64 := do
  let q ← udiv64 (absolute n) (absolute d)
  return if decide (n < 0) = decide (d < 0) then q.toInt64 else -q.toInt64

/-- `smod64`, which returns 32 bits. -/
def smod64 (n d : Int64) : Option Int32 := do
  let q ← sdiv64 n d
  return (n - d * q).toInt32

/-- `__divdi3`. -/
def divdi3 (n d : Int64) : Option Int64 := sdiv64 n d

/-- `__moddi3`. -/
def moddi3 (n d : Int64) : Option Int64 := (smod64 n d).map Int32.toInt64

/-- `__udivdi3`. -/
def udivdi3 (n d : UInt64) : Option UInt64 := udiv64 n d

/-- `__umoddi3`. -/
def umoddi3 (n d : UInt64) : Option UInt64 := (umod64 n d).map UInt32.toUInt64

/-! ### Dividing by less than the divisor -/

/-- **The quotient by less than the divisor** is too large by one at most, if what is left off the
divisor is small enough. -/
theorem estimate_le {n d d' : ℕ} (hpos : 0 < d') (hle : d' ≤ d) (hsmall : n * (d - d') < d' * d) :
    n / d ≤ n / d' ∧ n / d' ≤ n / d + 1 := by
  refine ⟨Nat.div_le_div_left hle hpos, ?_⟩
  obtain ⟨e, rfl⟩ := Nat.exists_eq_add_of_le hle
  rw [Nat.add_sub_cancel_left] at hsmall
  have hn : n < (d' + e) * (n / (d' + e) + 1) := Nat.lt_mul_div_succ n (by omega)
  rw [← Nat.lt_succ_iff, Nat.div_lt_iff_lt_mul hpos]
  set q := n / (d' + e)
  by_contra hge
  rw [Nat.not_lt] at hge
  -- what is left off would make up for a whole divisor
  have hoff : d' < e * (q + 1) := by nlinarith
  have hmul : e * (q + 2) * d' ≤ n * e := by nlinarith
  nlinarith

/-! ### `nlz` -/

/-- `n` zeros of a number were shifted out, and what is left is at least `2 ^ k`. -/
structure Shifted (v k : ℕ) (p : ℕ × UInt32) : Prop where
  eq : p.2.toNat = v * 2 ^ p.1
  ge : 2 ^ k ≤ p.2.toNat

theorem Shifted.shiftOut {v t : ℕ} {p : ℕ × UInt32} (h : Shifted v t p) (mask : UInt32) (k : ℕ)
    (hmask : mask.toNat = 2 ^ (t + k) - 1) (hsum : t + k + k = 32) (hk : k < 32) :
    Shifted v (t + k) (Lib.shiftOut mask k p) := by
  have hge := h.ge
  unfold Lib.shiftOut
  have hpos : 0 < 2 ^ (t + k) := Nat.two_pow_pos _
  split_ifs with hle <;> rw [UInt32.le_iff_toNat_le, hmask] at hle
  · have hlt : p.2.toNat * 2 ^ k < 2 ^ 32 := by
      rw [← hsum, Nat.pow_add 2 (t + k) k]
      exact Nat.mul_lt_mul_of_pos_right (by omega) (Nat.two_pow_pos k)
    have hk' : (UInt32.ofNat k).toNat % 32 = k := by
      rw [UInt32.toNat_ofNat', Nat.mod_eq_of_lt (Nat.lt_trans hk (by decide)), Nat.mod_eq_of_lt hk]
    have hshift : (p.2 <<< UInt32.ofNat k).toNat = p.2.toNat * 2 ^ k := by
      rw [UInt32.toNat_shiftLeft, hk', Nat.shiftLeft_eq, Nat.mod_eq_of_lt hlt]
    constructor
    · dsimp only
      rw [hshift, h.eq, Nat.mul_assoc, Nat.pow_add]
    · dsimp only
      rw [hshift, Nat.pow_add]
      exact Nat.mul_le_mul_right _ hge
  · exact ⟨h.eq, by omega⟩

/-- **`nlz`** counts the zeros in front: without them, the number has 32 bits. -/
theorem nlz_spec {x : UInt32} (hx : x ≠ 0) :
    nlz x ≤ 31 ∧ 2 ^ 31 ≤ x.toNat * 2 ^ nlz x ∧ x.toNat * 2 ^ nlz x < 2 ^ 32 := by
  have hpos : 0 < x.toNat := Nat.pos_of_ne_zero fun h => hx (UInt32.toNat_inj.1 h)
  have h₀ : Shifted x.toNat 0 (0, x) := ⟨by simp, hpos⟩
  have h₁ := h₀.shiftOut 0x0000ffff 16 rfl rfl (by decide)
  have h₂ := h₁.shiftOut 0x00ffffff 8 rfl rfl (by decide)
  have h₃ := h₂.shiftOut 0x0fffffff 4 rfl rfl (by decide)
  have h₄ := h₃.shiftOut 0x3fffffff 2 rfl rfl (by decide)
  unfold nlz
  dsimp only
  set p := Lib.shiftOut 0x3fffffff 2 (Lib.shiftOut 0x0fffffff 4
    (Lib.shiftOut 0x00ffffff 8 (Lib.shiftOut 0x0000ffff 16 (0, x))))
  obtain ⟨heq, hge⟩ := h₄
  have hlt := p.2.toNat_lt
  have hbound : 2 ^ 31 ≤ x.toNat * 2 ^ (if p.2 ≤ 0x7fffffff then p.1 + 1 else p.1) ∧
      x.toNat * 2 ^ (if p.2 ≤ 0x7fffffff then p.1 + 1 else p.1) < 2 ^ 32 := by
    have hmask : (0x7fffffff : UInt32).toNat = 2 ^ 31 - 1 := rfl
    split_ifs with hle <;> rw [UInt32.le_iff_toNat_le, hmask] at hle
    · rw [Nat.pow_succ 2 p.1, ← Nat.mul_assoc, ← heq]
      omega
    · rw [← heq]
      omega
  refine ⟨?_, hbound⟩
  by_contra hn
  have hpow : 2 ^ 32 ≤ 2 ^ (if p.2 ≤ 0x7fffffff then p.1 + 1 else p.1) :=
    Nat.pow_le_pow_right (by decide) (by omega)
  have hmul : 1 * 2 ^ 32 ≤ x.toNat * 2 ^ (if p.2 ≤ 0x7fffffff then p.1 + 1 else p.1) :=
    Nat.mul_le_mul hpos hpow
  omega

/-! ### Unsigned division -/

theorem divl_eq {n : UInt64} {d : UInt32} (hd : d ≠ 0) (hq : n.toNat / d.toNat < 2 ^ 32) :
    divl n d = some (UInt32.ofNat (n.toNat / d.toNat)) := by
  unfold divl
  rw [if_neg (not_or.2 ⟨hd, Nat.not_le.2 hq⟩)]

/-- A divisor of 32 bits: the high half is divided first. -/
theorem udiv64_short {n d : UInt64} (hd : d ≠ 0) (hshort : d.toNat < 2 ^ 32) :
    udiv64 n d = some (n / d) := by
  have hpos : 0 < d.toNat := Nat.pos_of_ne_zero fun h => hd (UInt64.toNat_inj.1 h)
  have hn := n.toNat_lt
  have hhigh : d >>> 32 = 0 := by
    refine UInt64.toNat_inj.1 ?_
    rw [UInt64.toNat_shiftRight, Nat.shiftRight_eq_div_pow]
    exact Nat.div_eq_of_lt hshort
  have hd0 : d.toUInt32.toNat = d.toNat := by rw [UInt64.toNat_toUInt32, Nat.mod_eq_of_lt hshort]
  have hn1 : (n >>> 32).toUInt32.toNat = n.toNat / 2 ^ 32 := by
    rw [UInt64.toNat_toUInt32, UInt64.toNat_shiftRight, Nat.shiftRight_eq_div_pow]
    exact Nat.mod_eq_of_lt (Nat.div_lt_of_lt_mul (by simpa using hn))
  set n1 := n.toNat / 2 ^ 32
  have hn1_lt : n1 < 2 ^ 32 := Nat.div_lt_of_lt_mul (by simpa using hn)
  have hrest : n1 % d.toNat < d.toNat := Nat.mod_lt _ hpos
  have hsplit : n.toNat = 2 ^ 32 * n1 + n.toNat % 2 ^ 32 := (Nat.div_add_mod _ _).symm
  have hb : ((1 : UInt64) <<< 32).toNat = 2 ^ 32 := rfl
  -- what is divided has no more than 64 bits, and its quotient no more than 32
  have hlow : (((1 : UInt64) <<< 32) * ((n >>> 32).toUInt32 % d.toUInt32).toUInt64 +
      n.toUInt32.toUInt64).toNat = 2 ^ 32 * (n1 % d.toNat) + n.toNat % 2 ^ 32 := by
    rw [UInt64.toNat_add, UInt64.toNat_mul, hb, UInt32.toNat_toUInt64, UInt32.toNat_toUInt64,
      UInt32.toNat_mod, hn1, hd0, UInt64.toNat_toUInt32]
    omega
  have hquot : (2 ^ 32 * (n1 % d.toNat) + n.toNat % 2 ^ 32) / d.toNat < 2 ^ 32 := by
    rw [Nat.div_lt_iff_lt_mul hpos]
    omega
  have hquotient : n.toNat / d.toNat =
      (2 ^ 32 * (n1 % d.toNat) + n.toNat % 2 ^ 32) / d.toNat + 2 ^ 32 * (n1 / d.toNat) := by
    rw [← Nat.add_mul_div_left _ _ hpos]
    congr 1
    have hdiv := Nat.div_add_mod n1 d.toNat
    calc n.toNat = 2 ^ 32 * (d.toNat * (n1 / d.toNat) + n1 % d.toNat) + n.toNat % 2 ^ 32 := by
          rw [hdiv, ← hsplit]
      _ = _ := by ring
  have hsum : (2 ^ 32 * (n1 % d.toNat) + n.toNat % 2 ^ 32) / d.toNat + 2 ^ 32 * (n1 / d.toNat) <
      2 ^ 64 := hquotient ▸ Nat.lt_of_le_of_lt (Nat.div_le_self _ _) hn
  unfold udiv64
  rw [if_pos hhigh]
  dsimp only
  rw [divl_eq (fun h => hpos.ne' (hd0 ▸ congrArg UInt32.toNat h)) (by rw [hlow, hd0]; exact hquot)]
  refine congrArg some (UInt64.toNat_inj.1 ?_)
  rw [UInt64.toNat_add, UInt64.toNat_mul, hb, UInt32.toNat_toUInt64, UInt32.toNat_toUInt64,
    UInt32.toNat_div, hn1, hd0, UInt32.toNat_ofNat', hlow, Nat.mod_eq_of_lt hquot, UInt64.toNat_div,
    hquotient, Nat.mod_eq_of_lt (Nat.lt_of_le_of_lt (Nat.le_add_left _ _) hsum),
    Nat.mod_eq_of_lt hsum]

/-- The quotient, from one that is right or one too large. -/
theorem correct_estimate {n d q : UInt64} (hpos : 0 < d.toNat) (hle : d.toNat ≤ n.toNat)
    (hlow : n.toNat / d.toNat ≤ q.toNat) (hhigh : q.toNat ≤ n.toNat / d.toNat + 1) :
    (if n - (q - 1) * d < d then q - 1 else q) = n / d := by
  have hn := n.toNat_lt
  have hdiv := Nat.div_add_mod n.toNat d.toNat
  have hmod := Nat.mod_lt n.toNat hpos
  have hone : 1 ≤ n.toNat / d.toNat := (Nat.one_le_div_iff hpos).2 hle
  have hpred : (q - 1).toNat = q.toNat - 1 := by
    rw [UInt64.toNat_sub_of_le]
    · rfl
    · rw [UInt64.le_iff_toNat_le]
      exact hone.trans hlow
  have hmul_le : (q.toNat - 1) * d.toNat ≤ n.toNat := by
    calc (q.toNat - 1) * d.toNat ≤ n.toNat / d.toNat * d.toNat := Nat.mul_le_mul_right _ (by omega)
      _ ≤ n.toNat := Nat.div_mul_le_self _ _
  have hmul : ((q - 1) * d).toNat = (q.toNat - 1) * d.toNat := by
    rw [UInt64.toNat_mul, hpred]
    exact Nat.mod_eq_of_lt (Nat.lt_of_le_of_lt hmul_le hn)
  have hsub : (n - (q - 1) * d).toNat = n.toNat - (q.toNat - 1) * d.toNat := by
    rw [UInt64.toNat_sub_of_le, hmul]
    rw [UInt64.le_iff_toNat_le, hmul]
    exact hmul_le
  refine UInt64.toNat_inj.1 ?_
  rw [UInt64.toNat_div]
  have hcases : q.toNat = n.toNat / d.toNat ∨ q.toNat = n.toNat / d.toNat + 1 := by omega
  rcases hcases with heq | heq
  · -- the rest of one less is no rest
    have hnot : ¬n - (q - 1) * d < d := by
      rw [UInt64.lt_iff_toNat_lt, hsub, heq, Nat.sub_mul, Nat.one_mul, Nat.mul_comm _ d.toNat]
      have hle := Nat.mul_le_mul_left d.toNat hone
      omega
    rw [if_neg hnot, heq]
  · have hlt : n - (q - 1) * d < d := by
      rw [UInt64.lt_iff_toNat_lt, hsub, heq, Nat.add_sub_cancel, Nat.mul_comm _ d.toNat]
      omega
    rw [if_pos hlt, hpred, heq, Nat.add_sub_cancel]

/-- The 32 highest bits of a divisor, and the quotient by them alone. -/
theorem highest_bits {n d s : ℕ} (hs : s ≤ 31) (hge : 2 ^ 31 ≤ d / 2 ^ 32 * 2 ^ s)
    (hlt : d / 2 ^ 32 * 2 ^ s < 2 ^ 32) (hn : n < 2 ^ 64) :
    d * 2 ^ s < 2 ^ 64 ∧ 2 ^ 31 ≤ d * 2 ^ s / 2 ^ 32 ∧ d * 2 ^ s / 2 ^ 32 < 2 ^ 32 ∧
      n / d ≤ n / (2 * (d * 2 ^ s / 2 ^ 32) * 2 ^ (31 - s)) ∧
      n / (2 * (d * 2 ^ s / 2 ^ 32) * 2 ^ (31 - s)) ≤ n / d + 1 := by
  have hab : 2 ^ s * 2 ^ (31 - s) = 2 ^ 31 := by rw [← Nat.pow_add, Nat.add_sub_cancel' hs]
  have ha : 0 < 2 ^ s := Nat.two_pow_pos s
  have hb : 0 < 2 ^ (31 - s) := Nat.two_pow_pos _
  generalize 2 ^ s = a at hge hlt hab ha
  generalize 2 ^ (31 - s) = b at hab hb
  have hsplit := Nat.div_add_mod d (2 ^ 32)
  have hmod := Nat.mod_lt d (show 0 < 2 ^ 32 by decide)
  -- the divisor fills 64 bits when its leading zeros are shifted out
  have hfull : d * a < 2 ^ 64 := by
    have hle : d / 2 ^ 32 < 2 * b := by
      refine Nat.lt_of_mul_lt_mul_right (a := a) ?_
      calc d / 2 ^ 32 * a < 2 ^ 32 := hlt
        _ = 2 * (a * b) := by
            rw [hab]
            norm_num
        _ = 2 * b * a := by ring
    calc d * a < 2 ^ 32 * (2 * b) * a := Nat.mul_lt_mul_of_pos_right (by omega) ha
      _ = 2 ^ 33 * (a * b) := by ring
      _ = 2 ^ 64 := by
          rw [hab]
          norm_num
  have hv_ge : 2 ^ 31 ≤ d * a / 2 ^ 32 := by
    rw [Nat.le_div_iff_mul_le (by decide)]
    calc 2 ^ 31 * 2 ^ 32 ≤ d / 2 ^ 32 * a * 2 ^ 32 := Nat.mul_le_mul_right _ hge
      _ = (2 ^ 32 * (d / 2 ^ 32)) * a := by ring
      _ ≤ d * a := Nat.mul_le_mul_right a (by omega)
  have hv_lt : d * a / 2 ^ 32 < 2 ^ 32 := by omega
  have hv_le : 2 ^ 32 * (d * a / 2 ^ 32) ≤ d * a := Nat.mul_div_le _ _
  have hlt_v : d * a < 2 ^ 32 * (d * a / 2 ^ 32 + 1) := Nat.lt_mul_div_succ _ (by decide)
  refine ⟨hfull, hv_ge, hv_lt, ?_⟩
  generalize d * a / 2 ^ 32 = v at hv_ge hv_lt hv_le hlt_v
  have hle : 2 * v * b ≤ d := by
    refine Nat.le_of_mul_le_mul_right (c := a) ?_ ha
    calc 2 * v * b * a = 2 * (a * b) * v := by ring
      _ = 2 ^ 32 * v := by
          rw [hab]
          norm_num
      _ ≤ d * a := hv_le
  have hoff : d - 2 * v * b ≤ 2 * b - 1 := by
    have hlt : d * a < (2 * v * b + 2 * b) * a := by
      calc d * a < 2 ^ 32 * (v + 1) := hlt_v
        _ = 2 * (a * b) * (v + 1) := by
            rw [hab]
            norm_num
        _ = (2 * v * b + 2 * b) * a := by ring
    have hlt' := Nat.lt_of_mul_lt_mul_right hlt
    omega
  have hwide : 2 ^ 32 * b ≤ 2 * v * b := Nat.mul_le_mul_right b (by omega)
  have hsq : 2 * b - 1 ≤ b * b := by
    obtain ⟨c, hc⟩ := Nat.exists_eq_add_of_le' hb
    have hexp : b * b = c * c + 2 * c + 1 := by
      rw [hc]
      ring
    omega
  refine estimate_le (Nat.mul_pos (by omega) hb) hle ?_
  calc n * (d - 2 * v * b) ≤ n * (b * b) := Nat.mul_le_mul_left _ (hoff.trans hsq)
    _ < 2 ^ 64 * (b * b) := Nat.mul_lt_mul_of_pos_right hn (Nat.mul_pos hb hb)
    _ = 2 ^ 32 * b * (2 ^ 32 * b) := by ring
    _ ≤ 2 * v * b * d := Nat.mul_le_mul hwide (hwide.trans hle)

/-- A divisor of more than 32 bits: the quotient by its highest bits. -/
theorem udiv64_long {n d : UInt64} (hlong : 2 ^ 32 ≤ d.toNat) : udiv64 n d = some (n / d) := by
  have hn := n.toNat_lt
  have hd := d.toNat_lt
  have hd1 : (d >>> 32).toUInt32.toNat = d.toNat / 2 ^ 32 := by
    rw [UInt64.toNat_toUInt32, UInt64.toNat_shiftRight, Nat.shiftRight_eq_div_pow]
    exact Nat.mod_eq_of_lt (Nat.div_lt_of_lt_mul (by simpa using hd))
  have hhigh : d >>> 32 ≠ 0 := by
    intro h
    have hzero := congrArg UInt64.toNat h
    rw [UInt64.toNat_shiftRight, Nat.shiftRight_eq_div_pow] at hzero
    change d.toNat / 2 ^ 32 = 0 at hzero
    omega
  unfold udiv64
  rw [if_neg hhigh]
  by_cases hlt : n < d
  · rw [if_pos hlt]
    rw [UInt64.lt_iff_toNat_lt] at hlt
    refine congrArg some (UInt64.toNat_inj.1 ?_)
    rw [UInt64.toNat_div, Nat.div_eq_of_lt hlt]
    rfl
  rw [if_neg hlt]
  rw [UInt64.lt_iff_toNat_lt, Nat.not_lt] at hlt
  have hd1_ne : (d >>> 32).toUInt32 ≠ 0 := fun h => by
    have hzero := hd1.symm.trans (congrArg UInt32.toNat h)
    change d.toNat / 2 ^ 32 = 0 at hzero
    omega
  obtain ⟨hs, hge, hlt'⟩ := nlz_spec hd1_ne
  rw [hd1] at hge hlt'
  obtain ⟨hfull, hv_ge, hv_lt, hlow, hhigh⟩ := highest_bits hs hge hlt' hn
  dsimp only
  generalize nlz (d >>> 32).toUInt32 = s at hs hfull hv_ge hv_lt hlow hhigh
  have hshift : (d <<< UInt64.ofNat s).toNat = d.toNat * 2 ^ s := by
    have hs' : (UInt64.ofNat s).toNat % 64 = s := by
      rw [UInt64.toNat_ofNat']
      omega
    rw [UInt64.toNat_shiftLeft, hs', Nat.shiftLeft_eq, Nat.mod_eq_of_lt hfull]
  have hdivisor : ((d <<< UInt64.ofNat s) >>> 32).toUInt32.toNat = d.toNat * 2 ^ s / 2 ^ 32 := by
    rw [UInt64.toNat_toUInt32, UInt64.toNat_shiftRight, hshift, Nat.shiftRight_eq_div_pow]
    exact Nat.mod_eq_of_lt hv_lt
  have hhalf : (n >>> 1).toNat = n.toNat / 2 := by
    rw [UInt64.toNat_shiftRight, Nat.shiftRight_eq_div_pow]
    rfl
  generalize d.toNat * 2 ^ s / 2 ^ 32 = v at hv_ge hv_lt hlow hhigh hdivisor
  have hquot : n.toNat / 2 / v < 2 ^ 32 := by
    rw [Nat.div_lt_iff_lt_mul (by omega)]
    have hmul : 2 ^ 32 * 2 ^ 31 ≤ 2 ^ 32 * v := Nat.mul_le_mul_left _ hv_ge
    omega
  have hdivisor_ne : ((d <<< UInt64.ofNat s) >>> 32).toUInt32 ≠ 0 := fun h => by
    have hzero : v = 0 := hdivisor.symm.trans (congrArg UInt32.toNat h)
    omega
  rw [divl_eq hdivisor_ne (by rw [hhalf, hdivisor]; exact hquot), hhalf, hdivisor]
  have hestimate : (UInt32.ofNat (n.toNat / 2 / v) >>> UInt32.ofNat (31 - s)).toUInt64.toNat =
      n.toNat / (2 * v * 2 ^ (31 - s)) := by
    have hs' : (UInt32.ofNat (31 - s)).toNat % 32 = 31 - s := by
      rw [UInt32.toNat_ofNat']
      omega
    rw [UInt32.toNat_toUInt64, UInt32.toNat_shiftRight, hs', UInt32.toNat_ofNat',
      Nat.mod_eq_of_lt hquot, Nat.shiftRight_eq_div_pow, Nat.div_div_eq_div_mul,
      Nat.div_div_eq_div_mul, Nat.mul_assoc]
  rw [← hestimate] at hlow hhigh
  exact congrArg some (correct_estimate (by omega) hlt hlow hhigh)

/-- **`udiv64`** is division, and traps for a divisor of zero only. -/
theorem udiv64_eq {n d : UInt64} (hd : d ≠ 0) : udiv64 n d = some (n / d) := by
  rcases Nat.lt_or_ge d.toNat (2 ^ 32) with hshort | hlong
  · exact udiv64_short hd hshort
  · exact udiv64_long hlong

theorem udiv64_zero (n : UInt64) : udiv64 n 0 = none := rfl

/-- **`umod64`** returns the 32 low bits of the remainder. -/
theorem umod64_eq {n d : UInt64} (hd : d ≠ 0) : umod64 n d = some (n % d).toUInt32 := by
  have hdiv := Nat.div_add_mod n.toNat d.toNat
  have hrest : n - d * (n / d) = n % d := by
    have hmul : (d * (n / d)).toNat = d.toNat * (n.toNat / d.toNat) := by
      rw [UInt64.toNat_mul, UInt64.toNat_div]
      exact Nat.mod_eq_of_lt (Nat.lt_of_le_of_lt (Nat.mul_div_le _ _) n.toNat_lt)
    refine UInt64.toNat_inj.1 ?_
    rw [UInt64.toNat_sub_of_le, hmul, UInt64.toNat_mod]
    · omega
    · rw [UInt64.le_iff_toNat_le, hmul]
      exact Nat.mul_div_le _ _
  unfold umod64
  rw [udiv64_eq hd]
  exact congrArg some (congrArg UInt64.toUInt32 hrest)

/-- **`__umoddi3`** is right where the remainder fits in 32 bits, and nowhere else. -/
theorem umoddi3_eq_iff {n d : UInt64} (hd : d ≠ 0) :
    umoddi3 n d = some (n % d) ↔ (n % d).toNat < 2 ^ 32 := by
  unfold umoddi3
  rw [umod64_eq hd, Option.map_some, Option.some_inj, ← UInt64.toNat_inj, UInt32.toNat_toUInt64,
    UInt64.toNat_toUInt32]
  exact Nat.mod_eq_iff_lt (by decide)

/-! ### Signed division -/

theorem toInt_toInt64 (q : UInt64) : q.toInt64.toInt = (q.toNat : ℤ).bmod (2 ^ 64) := by
  rw [← Int64.toInt_toBitVec, UInt64.toBitVec_toInt64, BitVec.toInt_eq_toNat_bmod]
  rfl

/-- The absolute value, of the least integer too. -/
theorem absolute_toNat (n : Int64) : (absolute n).toNat = n.toInt.natAbs := by
  have hle := n.le_toInt
  have hlt := n.toInt_lt
  unfold absolute
  split_ifs with h <;> rw [Int64.le_iff_toInt_le] at h
  · change 0 ≤ n.toInt at h
    rw [Int64.toNat_toUInt64_of_le (Int64.le_iff_toInt_le.2 h), ← Int64.toNat_toInt]
    omega
  · change ¬0 ≤ n.toInt at h
    have hbits : n.toInt = if 2 * n.toUInt64.toNat < 2 ^ 64 then (n.toUInt64.toNat : ℤ)
        else (n.toUInt64.toNat : ℤ) - (2 ^ 64 : ℕ) := by
      rw [← Int64.toNat_toBitVec, ← Int64.toInt_toBitVec, BitVec.toInt_eq_toNat_cond]
    rw [UInt64.toNat_neg]
    change (18446744073709551616 - n.toUInt64.toNat) % 18446744073709551616 = _
    split_ifs at hbits <;> omega

/-- Truncated division, from the quotient of the absolute values. -/
theorem tdiv_eq_natAbs (a b : ℤ) :
    a.tdiv b = if decide (a < 0) = decide (b < 0) then ((a.natAbs / b.natAbs : ℕ) : ℤ)
      else -((a.natAbs / b.natAbs : ℕ) : ℤ) := by
  rcases lt_or_ge a 0 with ha | ha <;> rcases lt_or_ge b 0 with hb | hb
  · rw [if_pos (by simp [ha, hb]), ← Int.neg_tdiv_neg, Int.natCast_ediv,
      Int.ofNat_natAbs_of_nonpos ha.le, Int.ofNat_natAbs_of_nonpos hb.le,
      Int.tdiv_eq_ediv_of_nonneg (by omega)]
  · rw [if_neg (by simp [ha, Int.not_lt.2 hb]), Int.natCast_ediv, Int.ofNat_natAbs_of_nonpos ha.le,
      Int.natAbs_of_nonneg hb, ← Int.tdiv_eq_ediv_of_nonneg (by omega), Int.neg_tdiv, Int.neg_neg]
  · rw [if_neg (by simp [hb, Int.not_lt.2 ha]), Int.natCast_ediv, Int.natAbs_of_nonneg ha,
      Int.ofNat_natAbs_of_nonpos hb.le, ← Int.tdiv_eq_ediv_of_nonneg ha, Int.tdiv_neg, Int.neg_neg]
  · rw [if_pos (by simp [Int.not_lt.2 ha, Int.not_lt.2 hb]), Int.natCast_ediv,
      Int.natAbs_of_nonneg ha, Int.natAbs_of_nonneg hb, Int.tdiv_eq_ediv_of_nonneg ha]

theorem absolute_ne_zero {d : Int64} (hd : d ≠ 0) : absolute d ≠ 0 := fun h => by
  have hzero : d.toInt.natAbs = 0 := by
    rw [← absolute_toNat, h]
    rfl
  exact hd (Int64.toInt_inj.1 (Int.natAbs_eq_zero.1 hzero))

/-- **`sdiv64`** is division towards zero, of 64 bits. -/
theorem sdiv64_eq {n d : Int64} (hd : d ≠ 0) : sdiv64 n d = some (n / d) := by
  have hq : (absolute n / absolute d).toNat = n.toInt.natAbs / d.toInt.natAbs := by
    rw [UInt64.toNat_div, absolute_toNat, absolute_toNat]
  have hneg (m : Int64) : decide (m < 0) = decide (m.toInt < 0) :=
    decide_eq_decide.2 Int64.lt_iff_toInt_lt
  unfold sdiv64
  rw [udiv64_eq (absolute_ne_zero hd)]
  refine congrArg some (Int64.toInt_inj.1 ?_)
  rw [Int64.toInt_div, tdiv_eq_natAbs, ← hq, hneg, hneg]
  split_ifs
  · exact toInt_toInt64 _
  · rw [Int64.toInt_neg, toInt_toInt64, Int.bmod_neg_bmod]

theorem sdiv64_zero (n : Int64) : sdiv64 n 0 = none := rfl

/-- **`smod64`** returns the 32 low bits of the remainder. -/
theorem smod64_eq {n d : Int64} (hd : d ≠ 0) : smod64 n d = some (n % d).toInt32 := by
  have hrest : n - d * (n / d) = n % d := by
    refine Int64.toInt_inj.1 ?_
    rw [Int64.toInt_sub, Int64.toInt_mul, Int64.toInt_div, Int64.toInt_mod, Int.sub_bmod_bmod,
      Int.tmod_def, Int.sub_bmod, Int.mul_bmod, Int.bmod_bmod, ← Int.mul_bmod, ← Int.sub_bmod,
      ← Int.tmod_def, ← Int64.toInt_mod]
    exact Int64.toInt_bmod_size _
  unfold smod64
  rw [sdiv64_eq hd]
  exact congrArg some (congrArg Int64.toInt32 hrest)

/-- **`__moddi3`** is right where the remainder fits in 32 bits, and nowhere else. -/
theorem moddi3_eq_iff {n d : Int64} (hd : d ≠ 0) :
    moddi3 n d = some (n % d) ↔ -2 ^ 31 ≤ (n % d).toInt ∧ (n % d).toInt < 2 ^ 31 := by
  unfold moddi3
  rw [smod64_eq hd, Option.map_some, Option.some_inj, ← Int64.toInt_inj, Int32.toInt_toInt64,
    Int64.toInt_toInt32]
  constructor
  · intro heq
    have hle := Int.le_bmod (x := (n % d).toInt) (m := 2 ^ 32) (by decide)
    have hlt := Int.bmod_lt (x := (n % d).toInt) (m := 2 ^ 32) (by decide)
    rw [heq] at hle hlt
    omega
  · rintro ⟨hle, hlt⟩
    exact Int.bmod_eq_of_le (by omega) (by omega)

/-- **The four routines** trap for a divisor of zero and for no other.  The quotients are right, and
the remainders where they fit in 32 bits. -/
theorem divisions_exact (n d : UInt64) (i j : Int64) :
    udivdi3 n d = (if d = 0 then none else some (n / d)) ∧
      divdi3 i j = (if j = 0 then none else some (i / j)) ∧
      (umoddi3 n d = some (n % d) ↔ d ≠ 0 ∧ (n % d).toNat < 2 ^ 32) ∧
      (moddi3 i j = some (i % j) ↔
        j ≠ 0 ∧ -2 ^ 31 ≤ (i % j).toInt ∧ (i % j).toInt < 2 ^ 31) := by
  refine ⟨?_, ?_, ?_, ?_⟩
  · split_ifs with hd
    · rw [hd]
      exact udiv64_zero n
    · exact udiv64_eq hd
  · split_ifs with hj
    · rw [hj]
      exact sdiv64_zero i
    · exact sdiv64_eq hj
  · by_cases hd : d = 0
    · rw [hd]
      exact iff_of_false (by simp [umoddi3, umod64, udiv64_zero]) (fun h => h.1 rfl)
    · rw [umoddi3_eq_iff hd, and_iff_right hd]
  · by_cases hj : j = 0
    · rw [hj]
      exact iff_of_false (by simp [moddi3, smod64, sdiv64_zero]) (fun h => h.1 rfl)
    · rw [moddi3_eq_iff hj, and_iff_right hj]

end Lib
end CS162

/-
# Bytes, words and strings in a memory

A memory is a function from addresses to bytes.  `Holds m a bs` says what lies at
`a`, `store` writes a list of bytes.  A word of 32 bits is four bytes, the least
significant first; a string is its bytes and a null byte, which none of them is.
-/

import Mathlib.Algebra.Group.Nat.Defs
import Mathlib.Tactic.NormNum

namespace CS162
namespace Basis

abbrev Memory := ℕ → UInt8

variable {m : Memory} {a b : ℕ} {xs ys : List UInt8}

/-- The bytes at `a`. -/
def Holds (m : Memory) (a : ℕ) (bs : List UInt8) : Prop := ∀ i b, bs[i]? = some b → m (a + i) = b

@[simp] theorem holds_nil : Holds m a [] := fun _ _ h => by simp at h

theorem holds_cons {x : UInt8} : Holds m a (x :: xs) ↔ m a = x ∧ Holds m (a + 1) xs := by
  constructor
  · intro h
    refine ⟨h 0 x rfl, fun i b hb => ?_⟩
    rw [Nat.add_assoc, Nat.add_comm 1]
    exact h (i + 1) b hb
  · rintro ⟨hx, hxs⟩ i b hb
    cases i with
    | zero => exact hx.trans (Option.some.inj hb)
    | succ i =>
      rw [Nat.add_comm i, ← Nat.add_assoc]
      exact hxs i b hb

theorem holds_append : Holds m a (xs ++ ys) ↔ Holds m a xs ∧ Holds m (a + xs.length) ys := by
  induction xs generalizing a with
  | nil => simp
  | cons x xs ih =>
    rw [List.cons_append, holds_cons, holds_cons, ih, List.length_cons, Nat.add_right_comm,
      Nat.add_assoc, and_assoc]

/-- What lies at `a` does not depend on the rest of the memory. -/
theorem Holds.congr {m' : Memory} (h : Holds m a xs)
    (heq : ∀ p, a ≤ p → p < a + xs.length → m' p = m p) : Holds m' a xs := by
  intro i b hb
  have hi : i < xs.length := (List.getElem?_eq_some_iff.1 hb).1
  rw [heq _ (Nat.le_add_right a i) (by omega), h i b hb]

/-! ### Writing -/

/-- The memory with `bs` at `a`. -/
def store (m : Memory) (a : ℕ) (bs : List UInt8) : Memory := fun p =>
  if a ≤ p then (bs[p - a]?).getD (m p) else m p

theorem store_of_lt {p : ℕ} (h : p < a) : store m a xs p = m p := if_neg (Nat.not_le.2 h)

theorem store_of_ge {p : ℕ} (h : a + xs.length ≤ p) : store m a xs p = m p := by
  unfold store
  split_ifs with hle
  · rw [List.getElem?_eq_none (by omega)]
    rfl
  · rfl

theorem holds_store : Holds (store m a xs) a xs := by
  intro i b hb
  rw [store, if_pos (Nat.le_add_right a i), Nat.add_sub_cancel_left, hb]
  rfl

/-- **A write leaves what lies elsewhere.** -/
theorem Holds.store (h : Holds m a xs) (hout : a + xs.length ≤ b ∨ b + ys.length ≤ a) :
    Holds (store m b ys) a xs := by
  refine h.congr fun p hlo hhi => ?_
  rcases hout with hout | hout
  · exact store_of_lt (by omega)
  · exact store_of_ge (by omega)

/-! ### Words -/

/-- The bytes of a word. -/
def leBytes (x : UInt32) : List UInt8 :=
  [UInt8.ofNat x.toNat, UInt8.ofNat (x.toNat / 2 ^ 8), UInt8.ofNat (x.toNat / 2 ^ 16),
    UInt8.ofNat (x.toNat / 2 ^ 24)]

@[simp] theorem length_leBytes (x : UInt32) : (leBytes x).length = 4 := rfl

/-- The word of four bytes. -/
def ofBytes (b₀ b₁ b₂ b₃ : UInt8) : UInt32 :=
  UInt32.ofNat (b₀.toNat + 2 ^ 8 * b₁.toNat + 2 ^ 16 * b₂.toNat + 2 ^ 24 * b₃.toNat)

/-- The word at an address. -/
def wordAt (m : Memory) (a : ℕ) : UInt32 := ofBytes (m a) (m (a + 1)) (m (a + 2)) (m (a + 3))

/-- **A word that was stored reads back.** -/
theorem Holds.wordAt {x : UInt32} (h : Holds m a (leBytes x)) : wordAt m a = x := by
  have hx : x.toNat < 2 ^ 32 := x.toNat_lt
  have h0 : m a = UInt8.ofNat x.toNat := h 0 _ rfl
  have h1 : m (a + 1) = UInt8.ofNat (x.toNat / 2 ^ 8) := h 1 _ rfl
  have h2 : m (a + 2) = UInt8.ofNat (x.toNat / 2 ^ 16) := h 2 _ rfl
  have h3 : m (a + 3) = UInt8.ofNat (x.toNat / 2 ^ 24) := h 3 _ rfl
  rw [Basis.wordAt, h0, h1, h2, h3, ← UInt32.toNat_inj]
  simp only [ofBytes, UInt8.toNat_ofNat', UInt32.toNat_ofNat']
  norm_num
  omega

/-! ### Strings -/

/-- A string: its bytes and a null byte. -/
def HoldsString (m : Memory) (a : ℕ) (s : List UInt8) : Prop := Holds m a (s ++ [0])

/-- **A string ends at its first null byte**, so there is one string at an address. -/
theorem HoldsString.unique {s t : List UInt8} (hs : 0 ∉ s) (ht : 0 ∉ t) (h : HoldsString m a s)
    (h' : HoldsString m a t) : s = t := by
  unfold HoldsString at h h'
  induction s generalizing a t with
  | nil =>
    cases t with
    | nil => rfl
    | cons y t =>
      have hy : y = 0 := (holds_cons.1 h').1.symm.trans (holds_cons.1 h).1
      exact absurd (hy ▸ List.mem_cons_self) ht
  | cons x s ih =>
    cases t with
    | nil =>
      have hx : x = 0 := (holds_cons.1 h).1.symm.trans (holds_cons.1 h').1
      exact absurd (hx ▸ List.mem_cons_self) hs
    | cons y t =>
      rw [List.cons_append, holds_cons] at h h'
      have hxy : x = y := h.1.symm.trans h'.1
      rw [hxy, ih (fun h0 => hs (List.mem_cons_of_mem _ h0))
        (fun h0 => ht (List.mem_cons_of_mem _ h0)) h.2 h'.2]

/-! ### Numbers of any width -/

/-- The lowest `n` bytes of a number, the least significant first. -/
def bytesOf : ℕ → ℕ → List UInt8
  | 0, _ => []
  | n + 1, x => UInt8.ofNat x :: bytesOf n (x / 256)

/-- The number of `n` bytes at `a`. -/
def numberAt (m : Memory) : ℕ → ℕ → ℕ
  | _, 0 => 0
  | a, n + 1 => (m a).toNat + 256 * numberAt m (a + 1) n

@[simp] theorem length_bytesOf (n x : ℕ) : (bytesOf n x).length = n := by
  induction n generalizing x with
  | zero => rfl
  | succ n ih => rw [bytesOf, List.length_cons, ih]

/-- **What was stored is what is read.** -/
theorem Holds.numberAt {n x : ℕ} (h : Holds m a (bytesOf n x)) (hx : x < 256 ^ n) :
    numberAt m a n = x := by
  induction n generalizing a x with
  | zero =>
    rw [Nat.pow_zero] at hx
    exact (Nat.lt_one_iff.1 hx).symm
  | succ n ih =>
    rw [bytesOf, holds_cons] at h
    have hdiv : x / 256 < 256 ^ n := Nat.div_lt_of_lt_mul (by rwa [Nat.pow_succ, Nat.mul_comm] at hx)
    have hbyte : (m a).toNat = x % 256 := by rw [h.1, UInt8.toNat_ofNat']
    rw [Basis.numberAt, ih h.2 hdiv, hbyte]
    exact Nat.mod_add_div x 256

/-- The number depends on its bytes alone. -/
theorem numberAt_congr {m' : Memory} {n : ℕ} (h : ∀ p, a ≤ p → p < a + n → m' p = m p) :
    numberAt m' a n = numberAt m a n := by
  induction n generalizing a with
  | zero => rfl
  | succ n ih =>
    rw [numberAt, numberAt, h a (Nat.le_refl a) (by omega),
      ih fun p hlo hhi => h p (by omega) (by omega)]

theorem numberAt_store_self {n x : ℕ} (hx : x < 256 ^ n) :
    numberAt (store m a (bytesOf n x)) a n = x :=
  (holds_store (m := m) (a := a)).numberAt hx

theorem numberAt_store_of_apart {n k : ℕ} {bytes : List UInt8}
    (h : a + n ≤ k ∨ k + bytes.length ≤ a) : numberAt (store m k bytes) a n = numberAt m a n := by
  refine numberAt_congr fun p hlo hhi => ?_
  rcases h with h | h
  · exact store_of_lt (by omega)
  · exact store_of_ge (by omega)

end Basis
end CS162

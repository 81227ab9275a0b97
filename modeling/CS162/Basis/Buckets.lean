/-
# Things in numbered buckets

`inBuckets b n` lists what is in the first `n` of the buckets `b`.  Putting something into one of
them, taking it out and distributing a list over them change this list by no more than that, up to
the order.
-/

import Mathlib.Data.List.Perm.Basic
import Mathlib.Logic.Function.Basic

namespace CS162
namespace Basis

variable {α : Type} {b c : ℕ → List α} {n i : ℕ} {a : α}

/-- What is in the first `n` buckets. -/
def inBuckets (b : ℕ → List α) (n : ℕ) : List α := (List.range n).flatMap b

/-- `a` comes first in bucket `i`. -/
def putBucket (b : ℕ → List α) (i : ℕ) (a : α) : ℕ → List α := Function.update b i (a :: b i)

theorem mem_inBuckets : a ∈ inBuckets b n ↔ ∃ i < n, a ∈ b i := by
  simp [inBuckets]

theorem inBuckets_congr (h : ∀ i < n, b i = c i) : inBuckets b n = inBuckets c n :=
  List.flatMap_congr fun i hi => h i (List.mem_range.1 hi)

theorem inBuckets_succ (b : ℕ → List α) (n : ℕ) : inBuckets b (n + 1) = inBuckets b n ++ b n := by
  rw [inBuckets, List.range_succ, List.flatMap_append, List.flatMap_singleton, inBuckets]

/-- One bucket has one thing more. -/
theorem inBuckets_update (hi : i < n) {l : List α} (hl : l.Perm (a :: b i)) :
    (inBuckets (Function.update b i l) n).Perm (a :: inBuckets b n) := by
  induction n with
  | zero => exact absurd hi (Nat.not_lt_zero i)
  | succ n ih =>
    rw [inBuckets_succ, inBuckets_succ]
    rcases Nat.lt_succ_iff_lt_or_eq.1 hi with hlt | rfl
    · rw [Function.update_of_ne (Nat.ne_of_gt hlt)]
      exact (ih hlt).append_right (b n)
    · rw [Function.update_self,
        inBuckets_congr fun j hj => Function.update_of_ne (Nat.ne_of_lt hj) l b]
      exact (hl.append_left _).trans List.perm_middle

/-- **What is put into a bucket is there, and nothing else is new.** -/
theorem inBuckets_put (hi : i < n) (a : α) :
    (inBuckets (putBucket b i a) n).Perm (a :: inBuckets b n) := inBuckets_update hi (.refl _)

/-- **What is taken out of the one bucket that has it is gone, and nothing else is.** -/
theorem inBuckets_erase [DecidableEq α] (hi : i < n) (ha : a ∈ b i)
    (hother : ∀ j < n, j ≠ i → a ∉ b j) :
    (inBuckets b n).Perm (a :: inBuckets (fun j => (b j).erase a) n) := by
  have hsame : ∀ j < n, b j = Function.update (fun j => (b j).erase a) i (b i) j := by
    intro j hj
    by_cases heq : j = i
    · rw [heq, Function.update_self]
    · rw [Function.update_of_ne heq, List.erase_of_not_mem (hother j hj heq)]
  rw [inBuckets_congr hsame]
  exact inBuckets_update hi (List.perm_cons_erase ha)

/-- **A list that is distributed over the buckets is in them.** -/
theorem inBuckets_distribute (idx : α → ℕ) {l : List α} (hidx : ∀ a ∈ l, idx a < n) :
    (inBuckets (l.foldl (fun b a => putBucket b (idx a) a) b) n).Perm (l ++ inBuckets b n) := by
  induction l generalizing b with
  | nil => exact .refl _
  | cons a l ih =>
    rw [List.foldl_cons]
    refine (ih fun e he => hidx e (List.mem_cons_of_mem a he)).trans ?_
    exact ((inBuckets_put (hidx a List.mem_cons_self) a).append_left l).trans List.perm_middle

/-- Each thing is in its own bucket. -/
theorem mem_distribute {idx : α → ℕ} {l : List α}
    (h : a ∈ l.foldl (fun b a => putBucket b (idx a) a) b i) : a ∈ b i ∨ a ∈ l ∧ idx a = i := by
  induction l generalizing b with
  | nil => exact .inl h
  | cons e l ih =>
    rcases ih h with hput | ⟨hl, heq⟩
    · change a ∈ putBucket b (idx e) e i at hput
      by_cases hi : i = idx e
      · rw [putBucket, ← hi, Function.update_self] at hput
        rcases List.mem_cons.1 hput with rfl | hb
        · exact .inr ⟨List.mem_cons_self, hi.symm⟩
        · exact .inl hb
      · rw [putBucket, Function.update_of_ne hi] at hput
        exact .inl hput
    · exact .inr ⟨List.mem_cons_of_mem e hl, heq⟩

end Basis
end CS162

/-
# Storing items until there is no more room

A sink is a state `s` with `put s x`, which stores one item, and `full s`, which says that there is
no room for one.  `fill` stores the items of a list one after the other as long as there is room,
and says how many it stored.

`StoresPrefix w` is what is known of a function that stores many items at once: some of the first
ones, all of them unless the sink is full then, and none in a full sink.  There is one such
function (`StoresPrefix.eq_fill`), and what it does with a list is what it does with the first part
and, if it stored all of it, with the second (`fill_append`).
-/

import Mathlib.Order.Basic
import Mathlib.Tactic.Common

namespace CS162
namespace Basis

variable {σ α : Type}

/-- Items are stored until the sink is full. -/
def fill (put : σ → α → σ) (full : σ → Bool) : List α → σ → ℕ × σ
  | [], s => (0, s)
  | x :: xs, s =>
    if full s = true then (0, s) else
    let r := fill put full xs (put s x)
    (r.1 + 1, r.2)

/-- The function stores the first items of what it is given, all of them unless the sink is full
then, and none in a full sink. -/
structure StoresPrefix (put : σ → α → σ) (full : σ → Bool) (w : List α → σ → ℕ × σ) : Prop where
  le : ∀ xs s, (w xs s).1 ≤ xs.length
  stores : ∀ xs s, (w xs s).2 = (xs.take (w xs s).1).foldl put s
  fills : ∀ xs s, (w xs s).1 < xs.length → full (w xs s).2 = true
  room : ∀ xs s k, k < (w xs s).1 → full ((xs.take k).foldl put s) = false

variable {put : σ → α → σ} {full : σ → Bool} {w : List α → σ → ℕ × σ} {xs ys : List α} {s : σ}

@[simp] theorem fill_nil : fill put full [] s = (0, s) := rfl

theorem fill_cons_full {x : α} (h : full s = true) : fill put full (x :: xs) s = (0, s) := if_pos h

theorem fill_cons_room {x : α} (h : full s = false) :
    fill put full (x :: xs) s =
      ((fill put full xs (put s x)).1 + 1, (fill put full xs (put s x)).2) :=
  if_neg (Bool.eq_false_iff.1 h)

/-- The loop that stores one item after the other is such a function. -/
theorem fill_storesPrefix (put : σ → α → σ) (full : σ → Bool) :
    StoresPrefix put full (fill put full) := by
  constructor
  · intro xs
    induction xs with
    | nil => exact fun _ => Nat.le_refl 0
    | cons x xs ih =>
      intro s
      cases hfull : full s with
      | true =>
        rw [fill_cons_full hfull]
        exact Nat.zero_le _
      | false =>
        rw [fill_cons_room hfull]
        exact Nat.succ_le_succ (ih _)
  · intro xs
    induction xs with
    | nil => exact fun _ => rfl
    | cons x xs ih =>
      intro s
      cases hfull : full s with
      | true =>
        rw [fill_cons_full hfull]
        rfl
      | false =>
        rw [fill_cons_room hfull]
        exact ih _
  · intro xs
    induction xs with
    | nil => exact fun s hlt => absurd hlt (Nat.lt_irrefl 0)
    | cons x xs ih =>
      intro s
      cases hfull : full s with
      | true =>
        rw [fill_cons_full hfull]
        exact fun _ => hfull
      | false =>
        rw [fill_cons_room hfull]
        exact fun hlt => ih _ (Nat.lt_of_succ_lt_succ hlt)
  · intro xs
    induction xs with
    | nil => exact fun s k hk => absurd hk (Nat.not_lt_zero k)
    | cons x xs ih =>
      intro s k hk
      cases hfull : full s with
      | true =>
        rw [fill_cons_full hfull] at hk
        exact absurd hk (Nat.not_lt_zero k)
      | false =>
        rw [fill_cons_room hfull] at hk
        cases k with
        | zero => exact hfull
        | succ k => exact ih _ k (Nat.lt_of_succ_lt_succ hk)

/-- How many items are stored is determined. -/
theorem StoresPrefix.not_lt {w' : List α → σ → ℕ × σ} (h : StoresPrefix put full w)
    (h' : StoresPrefix put full w') : ¬(w xs s).1 < (w' xs s).1 := by
  intro hlt
  have hfull := h.fills xs s (Nat.lt_of_lt_of_le hlt (h'.le xs s))
  rw [h.stores, h'.room xs s _ hlt] at hfull
  cases hfull

/-- **There is one such function.** -/
theorem StoresPrefix.eq_fill (h : StoresPrefix put full w) : w xs s = fill put full xs s := by
  have hfill := fill_storesPrefix put full
  have hcount : (w xs s).1 = (fill put full xs s).1 :=
    Nat.le_antisymm (Nat.not_lt.1 (hfill.not_lt h)) (Nat.not_lt.1 (h.not_lt hfill))
  refine Prod.ext hcount ?_
  rw [h.stores, hfill.stores, hcount]

/-- **Two parts**: the second is stored after the first, if all of the first is. -/
theorem fill_append (put : σ → α → σ) (full : σ → Bool) (xs ys : List α) (s : σ) :
    fill put full (xs ++ ys) s =
      if (fill put full xs s).1 = xs.length then
        (xs.length + (fill put full ys (fill put full xs s).2).1,
          (fill put full ys (fill put full xs s).2).2)
      else fill put full xs s := by
  induction xs generalizing s with
  | nil =>
    simp
  | cons x xs ih =>
    rw [List.cons_append, List.length_cons]
    cases hfull : full s with
    | true =>
      rw [fill_cons_full hfull, fill_cons_full hfull, if_neg (Nat.succ_ne_zero _).symm]
    | false =>
      rw [fill_cons_room hfull, fill_cons_room hfull, ih]
      simp only [Nat.add_right_cancel_iff]
      split_ifs
      · exact Prod.ext (by dsimp only; omega) rfl
      · rfl

end Basis
end CS162

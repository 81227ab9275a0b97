/-
# Sorting by a key

`sortBy key` is the stable sort by a key.  Where the keys are different, what it gives does not
depend on the order (`sortBy_congr`).
-/

import Mathlib.Data.List.Sort
import Mathlib.Tactic.Common

namespace CS162
namespace Basis

variable {α β : Type} [LinearOrder β] {key : α → β} {l l' : List α}

/-- The stable sort by a key. -/
def sortBy (key : α → β) (l : List α) : List α := l.mergeSort fun a b => decide (key a ≤ key b)

theorem sortBy_perm (key : α → β) (l : List α) : (sortBy key l).Perm l := List.mergeSort_perm l _

theorem mem_sortBy {a : α} : a ∈ sortBy key l ↔ a ∈ l := (sortBy_perm key l).mem_iff

theorem sortBy_sorted (key : α → β) (l : List α) :
    (sortBy key l).Pairwise fun a b => key a ≤ key b := by
  have htrans : ∀ a b c : α, decide (key a ≤ key b) = true → decide (key b ≤ key c) = true →
      decide (key a ≤ key c) = true := fun a b c hab hbc =>
    decide_eq_true (le_trans (of_decide_eq_true hab) (of_decide_eq_true hbc))
  have htotal : ∀ a b : α, (decide (key a ≤ key b) || decide (key b ≤ key a)) = true := fun a b => by
    rw [Bool.or_eq_true]
    exact (le_total (key a) (key b)).imp decide_eq_true decide_eq_true
  have hsorted := List.pairwise_mergeSort htrans htotal l
  exact hsorted.imp of_decide_eq_true

/-- With different keys, they increase. -/
theorem sortBy_strict (h : (l.map key).Nodup) : (sortBy key l).Pairwise fun a b => key a < key b := by
  have hnodup : ((sortBy key l).map key).Nodup := (((sortBy_perm key l).map key).nodup_iff).2 h
  exact ((sortBy_sorted key l).and (List.pairwise_map.1 hnodup)).imp fun hab => lt_of_le_of_ne hab.1 hab.2

/-- **The order does not matter** where the keys tell the elements apart. -/
theorem sortBy_congr (h : l.Perm l') (hkey : ∀ a ∈ l, ∀ b ∈ l, key a = key b → a = b) :
    sortBy key l = sortBy key l' := by
  refine List.Perm.eq_of_pairwise (fun a b ha hb hab hba => ?_) (sortBy_sorted key l)
    (sortBy_sorted key l') (((sortBy_perm key l).trans h).trans (sortBy_perm key l').symm)
  exact hkey a (mem_sortBy.1 ha) b (h.mem_iff.2 (mem_sortBy.1 hb)) (le_antisymm hab hba)

/-- Lists with increasing keys and the same elements are one. -/
theorem eq_of_strict (h : l.Pairwise fun a b => key a < key b)
    (h' : l'.Pairwise fun a b => key a < key b) (hmem : ∀ a, a ∈ l ↔ a ∈ l') : l = l' := by
  have hne : ∀ {m : List α}, (m.Pairwise fun a b => key a < key b) → m.Nodup := fun hm =>
    List.Pairwise.imp (fun hab heq => ne_of_lt hab (congrArg key heq)) hm
  refine List.Perm.eq_of_pairwise (fun a b _ _ hab hba => ?_) h h'
    ((List.perm_ext_iff_of_nodup (hne h) (hne h')).2 hmem)
  exact absurd hba (lt_asymm hab)

end Basis
end CS162

/-
# How often things occur

`bump a` counts one more `a` in a table of counts: it finds the row of `a` and adds one to it, or
puts a new row at the end.  Counting the elements of a list one after the other gives their
numbers of occurrences, in the order in which they first occur (`frequencies_foldl`).
-/

import Mathlib.Algebra.GroupWithZero.Nat
import Mathlib.Data.List.Induction
import Mathlib.Data.List.Nodup
import Mathlib.Tactic.Common

namespace CS162
namespace Basis

variable {α : Type} [DecidableEq α]

/-- Count one more `a`. -/
def bump (a : α) : List (α × ℕ) → List (α × ℕ)
  | [] => [(a, 1)]
  | (b, n) :: l => if b = a then (b, n + 1) :: l else (b, n) :: bump a l

/-- **The numbers of occurrences** of the elements of a list, in the order in which they first
occur. -/
structure Frequencies (as : List α) (l : List (α × ℕ)) : Prop where
  mem : ∀ a n, (a, n) ∈ l ↔ a ∈ as ∧ n = as.count a
  order : (l.map Prod.fst).Pairwise fun a b => as.idxOf a < as.idxOf b

section Bump

variable {a b : α} {n : ℕ} {as : List α} {l : List (α × ℕ)}

theorem keys_bump_of_mem (ha : a ∈ l.map Prod.fst) : (bump a l).map Prod.fst = l.map Prod.fst := by
  induction l with
  | nil => exact absurd ha List.not_mem_nil
  | cons r l ih =>
    rw [bump]
    split
    · rfl
    · rename_i hne
      rw [List.map_cons, List.map_cons, ih ((List.mem_cons.1 ha).resolve_left (Ne.symm hne))]

/-- What is not in the table yet comes to its end. -/
theorem bump_of_not_mem (ha : a ∉ l.map Prod.fst) : bump a l = l ++ [(a, 1)] := by
  induction l with
  | nil => rfl
  | cons r l ih =>
    rw [List.map_cons, List.mem_cons, not_or] at ha
    rw [bump, if_neg (Ne.symm ha.1), ih ha.2, List.cons_append]

/-- The rows of a table after a known element has been counted. -/
theorem mem_bump_of_mem (hnodup : (l.map Prod.fst).Nodup) (ha : a ∈ l.map Prod.fst) :
    (b, n) ∈ bump a l ↔ (b ≠ a ∧ (b, n) ∈ l) ∨ (b = a ∧ ∃ m, (a, m) ∈ l ∧ n = m + 1) := by
  induction l with
  | nil => exact absurd ha List.not_mem_nil
  | cons r l ih =>
    obtain ⟨c, m⟩ := r
    rw [List.map_cons, List.nodup_cons] at hnodup
    rw [bump]
    by_cases hca : c = a
    · subst hca
      have hno : ∀ k, (c, k) ∉ l := fun k hk => hnodup.1 (List.mem_map.2 ⟨_, hk, rfl⟩)
      rw [if_pos rfl, List.mem_cons, List.mem_cons, Prod.mk.injEq, Prod.mk.injEq]
      constructor
      · rintro (⟨rfl, rfl⟩ | hmem)
        · exact .inr ⟨rfl, m, List.mem_cons_self, rfl⟩
        · refine .inl ⟨?_, .inr hmem⟩
          rintro rfl
          exact hno _ hmem
      · rintro (⟨hne, ⟨rfl, -⟩ | hmem⟩ | ⟨rfl, k, hk, rfl⟩)
        · exact absurd rfl hne
        · exact .inr hmem
        · rcases List.mem_cons.1 hk with heq | hk
          · rw [(Prod.mk.inj heq).2]
            exact .inl ⟨rfl, rfl⟩
          · exact absurd hk (hno k)
    · have ha' := (List.mem_cons.1 ha).resolve_left (Ne.symm hca)
      rw [if_neg hca, List.mem_cons, List.mem_cons, ih hnodup.2 ha', Prod.mk.injEq]
      constructor
      · rintro (⟨rfl, rfl⟩ | ⟨hne, hmem⟩ | ⟨rfl, k, hk, rfl⟩)
        · exact .inl ⟨hca, .inl ⟨rfl, rfl⟩⟩
        · exact .inl ⟨hne, .inr hmem⟩
        · exact .inr ⟨rfl, k, List.mem_cons_of_mem _ hk, rfl⟩
      · rintro (⟨hne, heq | hmem⟩ | ⟨rfl, k, hk, rfl⟩)
        · exact .inl heq
        · exact .inr (.inl ⟨hne, hmem⟩)
        · rcases List.mem_cons.1 hk with heq | hk
          · exact absurd (Prod.mk.inj heq).1.symm hca
          · exact .inr (.inr ⟨rfl, k, hk, rfl⟩)

theorem Frequencies.nodup (h : Frequencies as l) : (l.map Prod.fst).Nodup :=
  List.Pairwise.imp (fun hlt heq => Nat.ne_of_lt hlt (congrArg as.idxOf heq)) h.order

theorem Frequencies.mem_keys (h : Frequencies as l) : a ∈ l.map Prod.fst ↔ a ∈ as := by
  constructor
  · intro ha
    obtain ⟨r, hr, rfl⟩ := List.mem_map.1 ha
    exact ((h.mem r.1 r.2).1 hr).1
  · exact fun ha => List.mem_map.2 ⟨_, (h.mem a (as.count a)).2 ⟨ha, rfl⟩, rfl⟩

theorem frequencies_nil : Frequencies ([] : List α) [] where
  mem _ _ := iff_of_false List.not_mem_nil fun h => List.not_mem_nil h.1
  order := List.Pairwise.nil

/-- **One more element.** -/
theorem Frequencies.bump (h : Frequencies as l) (a : α) : Frequencies (as ++ [a]) (bump a l) := by
  have hold : ∀ b ∈ as, (as ++ [a]).idxOf b = as.idxOf b := fun b hb => List.idxOf_append_of_mem hb
  have horder : (l.map Prod.fst).Pairwise fun b c => (as ++ [a]).idxOf b < (as ++ [a]).idxOf c := by
    refine h.order.imp_of_mem fun {b c} hb hc hlt => ?_
    rwa [hold b (h.mem_keys.1 hb), hold c (h.mem_keys.1 hc)]
  have hcount : ∀ b, (as ++ [a]).count b = as.count b + if a = b then 1 else 0 := fun b => by
    rw [List.count_append, List.count_singleton]
    simp only [beq_iff_eq]
  have hmem : ∀ b, b ∈ as ++ [a] ↔ b ∈ as ∨ b = a := fun b => by
    rw [List.mem_append, List.mem_singleton]
  by_cases ha : a ∈ as
  · have hkey := h.mem_keys.2 ha
    constructor
    · intro b n
      rw [mem_bump_of_mem h.nodup hkey, hmem, hcount]
      by_cases hba : b = a
      · subst hba
        rw [if_pos rfl]
        constructor
        · rintro (⟨hne, -⟩ | ⟨-, m, hm, rfl⟩)
          · exact absurd rfl hne
          · exact ⟨.inr rfl, congrArg (· + 1) ((h.mem b m).1 hm).2⟩
        · rintro ⟨-, rfl⟩
          exact .inr ⟨rfl, _, (h.mem b _).2 ⟨ha, rfl⟩, rfl⟩
      · rw [if_neg (Ne.symm hba), or_iff_left hba, Nat.add_zero, ← h.mem]
        constructor
        · rintro (⟨-, hb⟩ | ⟨heq, -⟩)
          · exact hb
          · exact absurd heq hba
        · exact fun hb => .inl ⟨hba, hb⟩
    · rwa [keys_bump_of_mem hkey]
  · have hkey := mt h.mem_keys.1 ha
    have hlast : (as ++ [a]).idxOf a = as.length := by
      rw [List.idxOf_append_of_notMem ha, List.idxOf_cons_self, Nat.add_zero]
    rw [bump_of_not_mem hkey]
    constructor
    · intro b n
      rw [List.mem_append, List.mem_singleton, Prod.mk.injEq, h.mem, hmem, hcount]
      by_cases hba : b = a
      · subst hba
        rw [if_pos rfl, List.count_eq_zero.2 ha]
        constructor
        · rintro (⟨hb, -⟩ | ⟨-, rfl⟩)
          · exact absurd hb ha
          · exact ⟨.inr rfl, rfl⟩
        · rintro ⟨-, rfl⟩
          exact .inr ⟨rfl, rfl⟩
      · rw [if_neg (Ne.symm hba), or_iff_left hba]
        exact or_iff_left fun hb => hba hb.1
    · rw [List.map_append, List.map_singleton, List.pairwise_append]
      refine ⟨horder, List.pairwise_singleton _ _, fun b hb c hc => ?_⟩
      obtain rfl := List.mem_singleton.1 hc
      rw [hlast, hold b (h.mem_keys.1 hb)]
      exact List.idxOf_lt_length_of_mem (h.mem_keys.1 hb)

theorem sum_bump (a : α) (l : List (α × ℕ)) :
    ((bump a l).map Prod.snd).sum = (l.map Prod.snd).sum + 1 := by
  induction l with
  | nil => rfl
  | cons r l ih =>
    rw [Basis.bump]
    split
    · rw [List.map_cons, List.map_cons, List.sum_cons, List.sum_cons, Nat.add_right_comm]
    · rw [List.map_cons, List.map_cons, List.sum_cons, List.sum_cons, ih, Nat.add_assoc]

/-- **Counting a list**, element by element. -/
theorem frequencies_foldl (as : List α) :
    Frequencies as (as.foldl (fun l a => Basis.bump a l) []) ∧
      ((as.foldl (fun l a => Basis.bump a l) []).map Prod.snd).sum = as.length := by
  induction as using List.reverseRecOn with
  | nil => exact ⟨frequencies_nil, rfl⟩
  | append_singleton as a ih =>
    rw [List.foldl_append]
    constructor
    · exact ih.1.bump a
    · rw [List.length_append]
      exact (sum_bump a _).trans (congrArg (· + 1) ih.2)

/-- Counts are at most as many as there are elements. -/
theorem Frequencies.le_length (h : Frequencies as l) {r : α × ℕ} (hr : r ∈ l) : r.2 ≤ as.length := by
  rw [((h.mem r.1 r.2).1 hr).2]
  exact List.count_le_length

end Bump

end Basis
end CS162

/-
# Grouping a sorted list by key

`groups` puts neighbours with one key together.  In a list that is sorted by key, it gives
every key once, in order, with all its values (`mem_groups`, `groups_sorted`).
-/

import Mathlib.Data.List.Basic
import Mathlib.Order.Defs.LinearOrder
import Mathlib.Order.Lattice
import Mathlib.Tactic.Common

namespace CS162
namespace Basis

variable {K V : Type} [LinearOrder K]

/-- Neighbours with one key, together. -/
def groups : List (K × V) → List (K × List V)
  | [] => []
  | (k, v) :: l =>
    match groups l with
    | [] => [(k, [v])]
    | (k', vs) :: gs => if k = k' then (k, v :: vs) :: gs else (k, [v]) :: (k', vs) :: gs

/-- The values of a key. -/
def valuesOf (k : K) (l : List (K × V)) : List V := (l.filter fun a => a.1 = k).map Prod.snd

/-- Sorted by key. -/
def SortedByKey (l : List (K × V)) : Prop := l.Pairwise fun a b => a.1 ≤ b.1

section Values

variable {k k' : K} {v : V} {l l' : List (K × V)}

theorem valuesOf_cons_self : valuesOf k ((k, v) :: l) = v :: valuesOf k l := by
  rw [valuesOf, List.filter_cons_of_pos (by simp), List.map_cons]
  rfl

theorem valuesOf_cons_of_ne (h : k' ≠ k) : valuesOf k ((k', v) :: l) = valuesOf k l := by
  rw [valuesOf, List.filter_cons_of_neg (by simpa using h)]
  rfl

theorem valuesOf_eq_nil (h : k ∉ l.map Prod.fst) : valuesOf k l = [] := by
  rw [valuesOf, List.map_eq_nil_iff, List.filter_eq_nil_iff]
  intro a ha hk
  exact h (of_decide_eq_true hk ▸ List.mem_map_of_mem ha)

theorem mem_valuesOf : v ∈ valuesOf k l ↔ (k, v) ∈ l := by
  unfold valuesOf
  rw [List.mem_map]
  constructor
  · rintro ⟨⟨k', v'⟩, ha, rfl⟩
    obtain ⟨hmem, hk⟩ := List.mem_filter.1 ha
    exact (of_decide_eq_true hk : k' = k) ▸ hmem
  · exact fun h => ⟨(k, v), List.mem_filter.2 ⟨h, decide_eq_true rfl⟩, rfl⟩

theorem valuesOf_append : valuesOf k (l ++ l') = valuesOf k l ++ valuesOf k l' := by
  rw [valuesOf, List.filter_append, List.map_append]
  rfl

theorem valuesOf_perm (h : l.Perm l') : (valuesOf k l).Perm (valuesOf k l') :=
  (h.filter _).map _

/-- The values are those of the pairs that have the key. -/
theorem valuesOf_filter {p : K → Bool} (hk : p k = true) :
    valuesOf k (l.filter fun a => p a.1) = valuesOf k l := by
  rw [valuesOf, List.filter_filter]
  refine congrArg (List.map Prod.snd) (List.filter_congr fun a _ => ?_)
  by_cases ha : a.1 = k
  · rw [ha, hk, Bool.and_true]
  · rw [decide_eq_false ha, Bool.false_and]

end Values

section Groups

variable {k k' : K} {v : V} {vs : List V} {l : List (K × V)} {gs : List (K × List V)}

/-- The first group is that of the first pair. -/
theorem groups_cons (k : K) (v : V) (l : List (K × V)) :
    ∃ vs gs, groups ((k, v) :: l) = (k, vs) :: gs := by
  rw [groups]
  split
  · exact ⟨_, _, rfl⟩
  · split
    · exact ⟨_, _, rfl⟩
    · exact ⟨_, _, rfl⟩

theorem groups_eq_nil (h : groups l = []) : l = [] := by
  cases l with
  | nil => rfl
  | cons a l =>
    obtain ⟨vs, gs, hcons⟩ := groups_cons a.1 a.2 l
    rw [h] at hcons
    cases hcons

/-- The pairs of a group. -/
def ungroup (g : K × List V) : List (K × V) := g.2.map (g.1, ·)

/-- **The groups, one after the other, are the list.** -/
theorem flatMap_groups (l : List (K × V)) : (groups l).flatMap ungroup = l := by
  induction l with
  | nil => rfl
  | cons a l ih =>
    rw [groups]
    split
    · rename_i hnil
      rw [groups_eq_nil hnil]
      rfl
    · rename_i k' vs gs hgroups
      rw [hgroups] at ih
      split
      · rename_i hkey
        rw [← ih, ← hkey]
        rfl
      · rw [List.flatMap_cons, ih]
        rfl

theorem values_ne_nil {g : K × List V} (h : g ∈ groups l) : g.2 ≠ [] := by
  induction l generalizing g with
  | nil => exact absurd h List.not_mem_nil
  | cons a l ih =>
    rw [groups] at h
    split at h
    · rw [List.mem_singleton.1 h]
      exact List.cons_ne_nil _ _
    · rename_i k' vs gs hgroups
      split at h
      · rcases List.mem_cons.1 h with rfl | h
        · exact List.cons_ne_nil _ _
        · exact ih (hgroups ▸ List.mem_cons_of_mem _ h)
      · rcases List.mem_cons.1 h with rfl | h
        · exact List.cons_ne_nil _ _
        · exact ih (hgroups ▸ h)

/-- A key is that of a group if it is that of a pair. -/
theorem mem_keys_groups : k ∈ (groups l).map Prod.fst ↔ k ∈ l.map Prod.fst := by
  constructor
  · intro hk
    obtain ⟨g, hg, rfl⟩ := List.mem_map.1 hk
    obtain ⟨v, vs, hcons⟩ := List.exists_cons_of_ne_nil (values_ne_nil hg)
    have hmem : (g.1, v) ∈ ungroup g := by
      rw [ungroup, hcons]
      exact List.mem_cons_self
    have hflat := List.mem_flatMap.2 ⟨g, hg, hmem⟩
    rw [flatMap_groups] at hflat
    exact List.mem_map_of_mem hflat
  · intro hk
    obtain ⟨a, ha, rfl⟩ := List.mem_map.1 hk
    rw [← flatMap_groups l] at ha
    obtain ⟨g, hg, ha⟩ := List.mem_flatMap.1 ha
    obtain ⟨v, -, rfl⟩ := List.mem_map.1 ha
    exact List.mem_map_of_mem hg

/-- **The groups of a sorted list** have increasing keys. -/
theorem groups_sorted (h : SortedByKey l) : (groups l).Pairwise fun a b => a.1 < b.1 := by
  induction l with
  | nil => exact List.Pairwise.nil
  | cons a l ih =>
    obtain ⟨hfirst, hrest⟩ := List.pairwise_cons.1 h
    have hsorted := ih hrest
    have hle : ∀ g ∈ groups l, a.1 ≤ g.1 := by
      intro g hg
      obtain ⟨b, hb, hkey⟩ := List.mem_map.1 (mem_keys_groups.1 (List.mem_map_of_mem hg))
      exact hkey ▸ hfirst b hb
    rw [groups]
    split
    · exact List.pairwise_singleton _ _
    · rename_i k' vs gs hgroups
      rw [hgroups] at hsorted hle
      obtain ⟨hlt, hgs⟩ := List.pairwise_cons.1 hsorted
      split
      · rename_i hkey
        refine List.pairwise_cons.2 ⟨fun g hg => ?_, hgs⟩
        rw [hkey]
        exact hlt g hg
      · rename_i hkey
        refine List.pairwise_cons.2 ⟨fun g hg => ?_, hsorted⟩
        rcases List.mem_cons.1 hg with rfl | hg
        · exact lt_of_le_of_ne (hle _ List.mem_cons_self) hkey
        · exact lt_of_le_of_lt (hle _ List.mem_cons_self) (hlt g hg)

theorem valuesOf_ungroup (k : K) (g : K × List V) :
    valuesOf k (ungroup g) = if g.1 = k then g.2 else [] := by
  obtain ⟨k', vs⟩ := g
  induction vs with
  | nil => exact (ite_self []).symm
  | cons v vs ih =>
    rw [ungroup, List.map_cons]
    by_cases hk : k' = k
    · subst hk
      rw [if_pos rfl] at ih ⊢
      rw [valuesOf_cons_self]
      exact congrArg (v :: ·) ih
    · rw [if_neg hk] at ih ⊢
      rw [valuesOf_cons_of_ne hk]
      exact ih

/-- In groups with different keys, a key's values are those of its group. -/
theorem valuesOf_flatMap (h : gs.Pairwise fun a b => a.1 ≠ b.1) (hg : (k, vs) ∈ gs) :
    valuesOf k (gs.flatMap ungroup) = vs := by
  induction gs with
  | nil => exact absurd hg List.not_mem_nil
  | cons g gs ih =>
    obtain ⟨hfirst, hrest⟩ := List.pairwise_cons.1 h
    rw [List.flatMap_cons, valuesOf_append, valuesOf_ungroup]
    rcases List.mem_cons.1 hg with rfl | hg
    · have hnone : k ∉ (gs.flatMap ungroup).map Prod.fst := by
        intro hmem
        obtain ⟨a, ha, hkey⟩ := List.mem_map.1 hmem
        obtain ⟨g, hg, ha⟩ := List.mem_flatMap.1 ha
        obtain ⟨v, -, rfl⟩ := List.mem_map.1 ha
        exact hfirst g hg hkey.symm
      rw [if_pos rfl, valuesOf_eq_nil hnone, List.append_nil]
    · rw [if_neg (hfirst _ hg), ih hrest hg, List.nil_append]

/-- **The groups of a sorted list**: each key with all its values. -/
theorem mem_groups (h : SortedByKey l) :
    (k, vs) ∈ groups l ↔ k ∈ l.map Prod.fst ∧ vs = valuesOf k l := by
  have hne : (groups l).Pairwise fun a b => a.1 ≠ b.1 := (groups_sorted h).imp ne_of_lt
  have hvalues : ∀ {us}, (k, us) ∈ groups l → us = valuesOf k l := fun hg => by
    rw [← valuesOf_flatMap hne hg, flatMap_groups]
  constructor
  · intro hg
    exact ⟨mem_keys_groups.1 (List.mem_map_of_mem hg), hvalues hg⟩
  · rintro ⟨hk, rfl⟩
    obtain ⟨⟨k', us⟩, hg, rfl⟩ := List.mem_map.1 (mem_keys_groups.2 hk)
    rwa [← hvalues hg]

end Groups

end Basis
end CS162

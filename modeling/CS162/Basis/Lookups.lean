/-
# Names looked up one in the other

`NamesLead child ok s ws u`: the names `ws`, each looked up in what the one before has led to, lead
from `s` to `u`, and everything behind `s` is among `ok`.  They lead to one thing
(`NamesLead.unique`).  Names that lead from everything among `ok` to itself can be left out
(`namesLead_filter`).
-/

import Mathlib.Data.Set.Basic

namespace CS162
namespace Basis

/-- The names lead from one thing to another.  `child` looks a name up. -/
inductive NamesLead {S N : Type} (child : S → N → Option S) (ok : Set S) : S → List N → S → Prop
  | here {s : S} : NamesLead child ok s [] s
  | part {s t u : S} {w : N} {ws : List N} :
      child s w = some t → t ∈ ok → NamesLead child ok t ws u → NamesLead child ok s (w :: ws) u

variable {S N : Type} {child : S → N → Option S} {ok ok' : Set S} {s t u v : S} {w : N}
  {ws vs : List N}

/-- **Names lead to one thing.** -/
theorem NamesLead.unique (h : NamesLead child ok s ws u) (h' : NamesLead child ok' s ws v) :
    u = v := by
  induction h with
  | here =>
    cases h' with
    | here => rfl
  | part hchild _ _ ih =>
    cases h' with
    | part hchild' _ hrest =>
      obtain rfl := Option.some.inj (hchild.symm.trans hchild')
      exact ih hrest

theorem NamesLead.mono (h : NamesLead child ok s ws u) (hok : ok ⊆ ok') :
    NamesLead child ok' s ws u := by
  induction h with
  | here => exact .here
  | part hchild ht _ ih => exact .part hchild (hok ht) ih

theorem NamesLead.mem (h : NamesLead child ok s ws u) (hs : s ∈ ok) : u ∈ ok := by
  induction h with
  | here => exact hs
  | part _ ht _ ih => exact ih ht

/-- Names lead on from where others lead to. -/
theorem namesLead_append : NamesLead child ok s (ws ++ vs) u ↔
    ∃ t, NamesLead child ok s ws t ∧ NamesLead child ok t vs u := by
  induction ws generalizing s with
  | nil =>
    refine ⟨fun h => ⟨s, .here, h⟩, ?_⟩
    rintro ⟨t, ht, h⟩
    cases ht
    exact h
  | cons w ws ih =>
    constructor
    · intro h
      cases h with
      | part hchild hmem hrest =>
        obtain ⟨t, hws, hvs⟩ := ih.1 hrest
        exact ⟨t, .part hchild hmem hws, hvs⟩
    · rintro ⟨t, hws, hvs⟩
      cases hws with
      | part hchild hmem hrest => exact .part hchild hmem (ih.2 ⟨t, hrest, hvs⟩)

theorem namesLead_singleton : NamesLead child ok s [w] u ↔ child s w = some u ∧ u ∈ ok := by
  constructor
  · intro h
    cases h with
    | part hchild hmem hrest =>
      cases hrest
      exact ⟨hchild, hmem⟩
  · rintro ⟨hchild, hmem⟩
    exact .part hchild hmem .here

/-- **Names that lead nowhere else** can be left out. -/
theorem namesLead_filter {keep : N → Bool}
    (hskip : ∀ s ∈ ok, ∀ w, keep w = false → child s w = some s) (hs : s ∈ ok) : NamesLead child ok s (ws.filter keep) u ↔ NamesLead child ok s ws u := by
  induction ws generalizing s with
  | nil => rfl
  | cons w ws ih =>
    cases hkeep : keep w with
    | false =>
      rw [List.filter_cons_of_neg (by simp [hkeep]), ih hs]
      constructor
      · exact .part (hskip s hs w hkeep) hs
      · intro h
        cases h with
        | part hchild _ hrest =>
          rw [hskip s hs w hkeep] at hchild
          cases hchild
          exact hrest
    | true =>
      rw [List.filter_cons_of_pos hkeep]
      constructor
      · intro h
        cases h with
        | part hchild hmem hrest => exact .part hchild hmem ((ih hmem).1 hrest)
      · intro h
        cases h with
        | part hchild hmem hrest => exact .part hchild hmem ((ih hmem).2 hrest)

end Basis
end CS162

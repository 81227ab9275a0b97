/-
# Trees kept as tables of pointers

A tree whose nodes are `S`: `child p i` is the node that index `i` of node `p`
stands for.  It is stored in tables, `table p i` being entry `i` of node `p`, and
every node has a place `place c`.  `Linked` says that the tables of the nodes in
use are a picture of them: an entry that stands for a node in use is its place,
and one that stands for a node not in use is `null`.

Putting one more node into use, by writing its place into its parent's table,
keeps the picture (`Linked.add`) if the new node's own table is empty.
-/

import Mathlib.Data.Set.Insert
import Mathlib.Logic.Function.Basic

namespace CS162
namespace Basis

variable {S I V : Type} {child : S → I → Option S} {null : V} {table : S → I → V} {place : S → V}
  {live : Set S}

/-- The tables of the nodes in use show which of their children are in use. -/
structure Linked (child : S → I → Option S) (null : V) (table : S → I → V) (place : S → V)
    (live : Set S) : Prop where
  used : ∀ p i c, p ∈ live → child p i = some c → c ∈ live → table p i = place c
  unused : ∀ p i c, p ∈ live → child p i = some c → c ∉ live → table p i = null

namespace Linked

/-- Only the tables and places of the nodes in use matter. -/
theorem congr (h : Linked child null table place live) {table' : S → I → V} {place' : S → V}
    (ht : ∀ p ∈ live, table' p = table p) (hp : ∀ c ∈ live, place' c = place c) :
    Linked child null table' place' live where
  used p i c hlive hc hc' := by rw [ht p hlive, hp c hc', h.used p i c hlive hc hc']
  unused p i c hlive hc hc' := by rw [ht p hlive, h.unused p i c hlive hc hc']

variable [DecidableEq S] [DecidableEq I]

/-- **Putting a node into use.** -/
theorem add (hinj : ∀ p i p' i' c, child p i = some c → child p' i' = some c → p = p' ∧ i = i')
    (h : Linked child null table place live) {p : S} {i : I} {c : S} (hp : p ∈ live)
    (hc : child p i = some c) (hnew : c ∉ live)
    (hempty : ∀ j d, child c j = some d → table c j = null ∧ d ∉ live) (v : V) :
    Linked child null (Function.update table p (Function.update (table p) i v))
      (Function.update place c v) (insert c live) := by
  have hpc : p ≠ c := fun he => hnew (he ▸ hp)
  -- the new node is no other node's child, nor its own
  have honly : ∀ q j, q ≠ p ∨ j ≠ i → child q j ≠ some c := by
    intro q j hne he
    obtain ⟨rfl, rfl⟩ := hinj q j p i c he hc
    simp at hne
  have hsame : ∀ q j d, q ∈ live → child q j = some d → d ≠ c →
      Function.update table p (Function.update (table p) i v) q j = table q j := by
    intro q j d _ hd hdc
    by_cases hqp : q = p
    · subst hqp
      have hji : j ≠ i := by
        rintro rfl
        exact hdc (Option.some.inj (hd.symm.trans hc))
      rw [Function.update_self, Function.update_of_ne hji]
    · rw [Function.update_of_ne hqp]
  have hlink : Function.update table p (Function.update (table p) i v) p i = v := by
    rw [Function.update_self, Function.update_self]
  refine ⟨fun q j d hq hd hd' => ?_, fun q j d hq hd hd' => ?_⟩
  · by_cases hdc : d = c
    · subst hdc
      obtain ⟨rfl, rfl⟩ := hinj q j p i d hd hc
      rw [hlink, Function.update_self]
    · have hdlive : d ∈ live := hd'.resolve_left hdc
      rcases hq with rfl | hq
      · exact absurd hdlive (hempty j d hd).2
      · rw [hsame q j d hq hd hdc, Function.update_of_ne hdc]
        exact h.used q j d hq hd hdlive
  · have hdc : d ≠ c := fun he => hd' (.inl he)
    rcases hq with rfl | hq
    · rw [Function.update_of_ne hpc.symm]
      exact (hempty j d hd).1
    · rw [hsame q j d hq hd hdc]
      exact h.unused q j d hq hd fun hl => hd' (.inr hl)

end Linked

end Basis
end CS162

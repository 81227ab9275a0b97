/-
# Extents

A line of `n` places, some of which are taken: those set aside from the start and those of the
extents in use.  An extent is a run of places; it fits where its places are on the line and free
(`Fits`), and first fit puts it at the lowest such place (`FirstFit`).

`Packed` is the invariant of taking extents and giving them back: the extents in use have no place
in common and none set aside, and nothing else is taken.  Putting an extent where it fits keeps it
(`Packed.take`), and so does giving one back (`Packed.give`).
-/

import Mathlib.Data.List.Pairwise
import Mathlib.Tactic.Common

namespace CS162
namespace Basis

/-- The places from `start` on, `cnt` of them. -/
structure Extent where
  start : ℕ
  cnt : ℕ
  deriving DecidableEq

/-- The place is one of the extent's. -/
def Extent.Covers (e : Extent) (i : ℕ) : Prop := e.start ≤ i ∧ i < e.start + e.cnt

/-- No place is in both extents. -/
def Extent.Apart (e e' : Extent) : Prop := ∀ i, e.Covers i → ¬e'.Covers i

theorem Extent.Apart.symm {e e' : Extent} (h : e.Apart e') : e'.Apart e :=
  fun i h' h₁ => h i h₁ h'

variable {aside taken taken' : ℕ → Prop} {n : ℕ} {e : Extent} {live : List Extent}

/-- The extent lies on the line, and its places are free. -/
def Fits (taken : ℕ → Prop) (n : ℕ) (e : Extent) : Prop :=
  e.start + e.cnt ≤ n ∧ ∀ i, e.Covers i → ¬taken i

/-- The extent fits, and would not fit lower. -/
def FirstFit (taken : ℕ → Prop) (n : ℕ) (e : Extent) : Prop :=
  Fits taken n e ∧ ∀ start < e.start, ¬Fits taken n ⟨start, e.cnt⟩

/-- The lowest place for a number of places is one. -/
theorem FirstFit.unique {i j cnt : ℕ} (h : FirstFit taken n ⟨i, cnt⟩)
    (h' : FirstFit taken n ⟨j, cnt⟩) : i = j := by
  rcases Nat.lt_trichotomy i j with hlt | heq | hlt
  · exact absurd h.1 (h'.2 i hlt)
  · exact heq
  · exact absurd h'.1 (h.2 j hlt)

/-- **The extents in use**, on a line with the places `aside` set aside. -/
structure Packed (aside taken : ℕ → Prop) (n : ℕ) (live : List Extent) : Prop where
  taken : ∀ i, taken i ↔ aside i ∨ ∃ e ∈ live, e.Covers i
  onLine : ∀ e ∈ live, 1 ≤ e.cnt ∧ e.start + e.cnt ≤ n
  free : ∀ e ∈ live, ∀ i, e.Covers i → ¬aside i
  apart : live.Pairwise Extent.Apart

/-- No extent is in use. -/
theorem Packed.nil (h : ∀ i, taken i ↔ aside i) : Packed aside taken n [] where
  taken i := by
    rw [h]
    exact ⟨.inl, fun h => h.elim id fun ⟨_, he, _⟩ => absurd he List.not_mem_nil⟩
  onLine e he := absurd he List.not_mem_nil
  free e he := absurd he List.not_mem_nil
  apart := .nil

/-- **An extent is put where it fits.** -/
theorem Packed.take (h : Packed aside taken n live) (hcnt : 1 ≤ e.cnt) (hfits : Fits taken n e)
    (htaken : ∀ i, taken' i ↔ taken i ∨ e.Covers i) : Packed aside taken' n (e :: live) where
  taken i := by
    rw [htaken, h.taken]
    simp only [List.mem_cons, exists_eq_or_imp]
    exact or_assoc.trans (or_congr_right or_comm)
  onLine := List.forall_mem_cons.2 ⟨⟨hcnt, hfits.1⟩, h.onLine⟩
  free := List.forall_mem_cons.2
    ⟨fun i hi haside => hfits.2 i hi ((h.taken i).2 (.inl haside)), h.free⟩
  apart := by
    refine List.pairwise_cons.2 ⟨fun e' he' i hi hi' => ?_, h.apart⟩
    exact hfits.2 i hi ((h.taken i).2 (.inr ⟨e', he', hi'⟩))

/-- **An extent is given back.** -/
theorem Packed.give (h : Packed aside taken n live) (he : e ∈ live)
    (htaken : ∀ i, taken' i ↔ taken i ∧ ¬e.Covers i) : Packed aside taken' n (live.erase e) := by
  have hperm := List.perm_cons_erase he
  have hcons : (e :: live.erase e).Pairwise Extent.Apart :=
    h.apart.perm hperm fun h => h.symm
  obtain ⟨hfirst, hrest⟩ := List.pairwise_cons.1 hcons
  have hmem : ∀ e', e' ∈ live ↔ e' = e ∨ e' ∈ live.erase e := fun e' => by
    rw [hperm.mem_iff, List.mem_cons]
  constructor
  · intro i
    rw [htaken, h.taken]
    constructor
    · rintro ⟨haside | ⟨e', he', hi⟩, hnot⟩
      · exact .inl haside
      · obtain rfl | hrest' := (hmem e').1 he'
        · exact absurd hi hnot
        · exact .inr ⟨e', hrest', hi⟩
    · rintro (haside | ⟨e', he', hi⟩)
      · exact ⟨.inl haside, fun hi => h.free e he i hi haside⟩
      · exact ⟨.inr ⟨e', (hmem e').2 (.inr he'), hi⟩, fun hi' => hfirst e' he' i hi' hi⟩
  · exact fun e' he' => h.onLine e' ((hmem e').2 (.inr he'))
  · exact fun e' he' => h.free e' ((hmem e').2 (.inr he'))
  · exact hrest

end Basis
end CS162

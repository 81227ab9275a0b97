/-
# Sorting by a heap

Things in the places `1` to `cnt` are heap ordered when none is above the thing at half its place.
`floatDown` lets the thing at one place down until this holds again, `heapSort` orders all places
with it.  Both change the order of the things only, and a round of `floatDown` doubles the place,
so `k` rounds are enough below `2 ^ k`.
-/

import Mathlib.Algebra.Order.Group.Nat
import Mathlib.Data.List.Perm.Basic
import Mathlib.Data.List.Nodup
import Mathlib.Logic.Equiv.Basic
import Mathlib.Tactic.Common

namespace CS162
namespace Basis

section
variable {α : Type} (le : α → α → Prop) [DecidableRel le]

/-- The place of the largest among `i` and the places `2 * i` and `2 * i + 1`. -/
def largest (f : ℕ → α) (i cnt : ℕ) : ℕ :=
  let max := if 2 * i ≤ cnt ∧ ¬ le (f (2 * i)) (f i) then 2 * i else i
  if 2 * i + 1 ≤ cnt ∧ ¬ le (f (2 * i + 1)) (f max) then 2 * i + 1 else max

/-- The thing at `i` goes down, for at most so many rounds. -/
def floatDown : ℕ → (ℕ → α) → ℕ → ℕ → Option (ℕ → α)
  | 0, _, _, _ => none
  | rounds + 1, f, i, cnt =>
    if largest le f i cnt = i then some f
    else floatDown rounds (f ∘ Equiv.swap i (largest le f i cnt)) (largest le f i cnt) cnt

/-- The places `i`, `i - 1`, …, `1` are let down. -/
def heapUp (rounds cnt : ℕ) : ℕ → (ℕ → α) → Option (ℕ → α)
  | 0, f => some f
  | i + 1, f => (floatDown le rounds f (i + 1) cnt).bind (heapUp rounds cnt i)

/-- The first of `i` things goes last, and the one that was last is let down. -/
def takeDown (rounds : ℕ) : ℕ → (ℕ → α) → Option (ℕ → α)
  | 0, f => some f
  | 1, f => some f
  | i + 2, f =>
    (floatDown le rounds (f ∘ Equiv.swap 1 (i + 2)) 1 (i + 1)).bind (takeDown rounds (i + 1))

def heapSort (rounds cnt : ℕ) (f : ℕ → α) : Option (ℕ → α) :=
  (heapUp le rounds cnt (cnt / 2) f).bind (takeDown le rounds cnt)

end

variable {α : Type} {le : α → α → Prop} {f g : ℕ → α} {i j cnt rounds : ℕ}

/-! ### The same things in another order -/

/-- `g` has the things of `f`, and outside `lo` to `hi` each is where it was. -/
def Rearranged (lo hi : ℕ) (f g : ℕ → α) : Prop :=
  ∃ σ : Equiv.Perm ℕ, g = f ∘ σ ∧ ∀ j, j < lo ∨ hi < j → σ j = j

theorem Rearranged.refl (lo hi : ℕ) (f : ℕ → α) : Rearranged lo hi f f :=
  ⟨Equiv.refl ℕ, rfl, fun _ _ => rfl⟩

theorem Rearranged.trans {lo hi : ℕ} {f g h : ℕ → α} (hfg : Rearranged lo hi f g)
    (hgh : Rearranged lo hi g h) : Rearranged lo hi f h := by
  obtain ⟨σ, rfl, hσ⟩ := hfg
  obtain ⟨τ, rfl, hτ⟩ := hgh
  refine ⟨τ.trans σ, rfl, fun j hj => ?_⟩
  rw [Equiv.trans_apply, hτ j hj, hσ j hj]

theorem Rearranged.mono {lo hi lo' hi' : ℕ} (h : Rearranged lo hi f g) (hlo : lo' ≤ lo)
    (hhi : hi ≤ hi') : Rearranged lo' hi' f g := by
  obtain ⟨σ, hg, hσ⟩ := h
  exact ⟨σ, hg, fun j hj => hσ j (by omega)⟩

theorem rearranged_swap {lo hi a b : ℕ} (ha : lo ≤ a ∧ a ≤ hi) (hb : lo ≤ b ∧ b ≤ hi) :
    Rearranged lo hi f (f ∘ Equiv.swap a b) :=
  ⟨Equiv.swap a b, rfl, fun j hj => Equiv.swap_apply_of_ne_of_ne (by omega) (by omega)⟩

theorem Rearranged.outside {lo hi : ℕ} (h : Rearranged lo hi f g) (hj : j < lo ∨ hi < j) :
    g j = f j := by
  obtain ⟨σ, rfl, hσ⟩ := h
  rw [Function.comp_apply, hσ j hj]

/-- What is said of all things between the two bounds is said of them in any order. -/
theorem Rearranged.all {lo hi : ℕ} (h : Rearranged lo hi f g) {P : α → Prop}
    (hP : ∀ j, lo ≤ j → j ≤ hi → P (f j)) (hlo : lo ≤ j) (hhi : j ≤ hi) : P (g j) := by
  obtain ⟨σ, rfl, hσ⟩ := h
  refine hP (σ j) ?_ ?_ <;> by_contra hout
  · have hfix : σ (σ j) = σ j := hσ (σ j) (.inl (by omega))
    exact hout (by rwa [σ.injective hfix])
  · have hfix : σ (σ j) = σ j := hσ (σ j) (.inr (by omega))
    exact hout (by rwa [σ.injective hfix])

/-- The things in the places `1` to `cnt`. -/
def places (f : ℕ → α) (cnt : ℕ) : List α := (List.range' 1 cnt).map f

theorem Rearranged.perm (h : Rearranged 1 cnt f g) : (places g cnt).Perm (places f cnt) := by
  obtain ⟨σ, rfl, hσ⟩ := h
  have hmoved : ((List.range' 1 cnt).map σ).Perm (List.range' 1 cnt) := by
    have hnodup : (List.range' 1 cnt).Nodup := List.nodup_range'
    refine (List.perm_ext_iff_of_nodup (List.Nodup.map σ.injective hnodup) hnodup).2 fun j => ?_
    simp only [List.mem_map, List.mem_range'_1]
    constructor
    · rintro ⟨k, hk, rfl⟩
      by_contra hout
      have hfix : σ (σ k) = σ k := hσ (σ k) (by omega)
      rw [σ.injective hfix] at hout
      exact hout hk
    · intro hj
      refine ⟨σ.symm j, ?_, σ.apply_symm_apply j⟩
      by_contra hout
      have hfix : σ (σ.symm j) = σ.symm j := hσ (σ.symm j) (by omega)
      rw [σ.apply_symm_apply] at hfix
      rw [← hfix] at hout
      exact hout hj
  rw [places, places, ← List.map_map]
  exact hmoved.map f

/-! ### Heap order -/

/-- No thing is above the one at half its place, as far as that is at `lo` or later. -/
def HeapFrom (le : α → α → Prop) (f : ℕ → α) (lo cnt : ℕ) : Prop :=
  ∀ j ≤ cnt, lo ≤ j / 2 → le (f j) (f (j / 2))

/-- Heap order but for the places right below `i`, which are below what `i` itself is below. -/
structure HeapBut (le : α → α → Prop) (f : ℕ → α) (lo i cnt : ℕ) : Prop where
  links : ∀ j ≤ cnt, lo ≤ j / 2 → j / 2 ≠ i → le (f j) (f (j / 2))
  across : ∀ j ≤ cnt, j / 2 = i → lo ≤ i / 2 → le (f j) (f (i / 2))

theorem heapFrom_half : HeapFrom le f (cnt / 2 + 1) cnt := fun j hj hlo => by omega

/-- One place more, and its thing may be too small for it. -/
theorem HeapFrom.but (h : HeapFrom le f (i + 1) cnt) (hi : 1 ≤ i) : HeapBut le f i i cnt where
  links := fun j hj hlo hne => h j hj (by omega)
  across := fun j hj hhalf hlo => by omega

/-- Any two things are in order one way or the other, and the order is transitive. -/
structure Ranking (le : α → α → Prop) : Prop where
  total : ∀ a b, le a b ∨ le b a
  trans : ∀ a b c, le a b → le b c → le a c

theorem Ranking.refl (hle : Ranking le) (a : α) : le a a := (hle.total a a).elim id id

theorem Ranking.of_not (hle : Ranking le) {a b : α} (h : ¬ le a b) : le b a :=
  (hle.total a b).resolve_left h

/-- **The first thing of a heap is the largest.** -/
theorem HeapFrom.first (hle : Ranking le) (h : HeapFrom le f 1 cnt) (hlo : 1 ≤ j) (hj : j ≤ cnt) :
    le (f j) (f 1) := by
  induction j using Nat.strong_induction_on with
  | _ j ih =>
    rcases Nat.eq_or_lt_of_le hlo with rfl | hlt
    · exact hle.refl (f 1)
    · exact hle.trans _ _ _ (h j hj (by omega)) (ih (j / 2) (by omega) (by omega) (by omega))

/-! ### One round -/

/-- `largest` is at `i` or right below it, and nothing right below `i` is above it. -/
structure IsLargest (le : α → α → Prop) (f : ℕ → α) (i cnt max : ℕ) : Prop where
  place : max = i ∨ max / 2 = i ∧ i < max ∧ max ≤ cnt
  self : le (f i) (f max)
  below : ∀ j ≤ cnt, 1 ≤ j → j / 2 = i → le (f j) (f max)

/-- The last round: the thing at `i` is in its place. -/
theorem HeapBut.stop {lo : ℕ} (h : HeapBut le f lo i cnt) (hi : 1 ≤ i)
    (hmax : IsLargest le f i cnt i) : HeapFrom le f lo cnt := by
  intro j hj hlo
  by_cases hhalf : j / 2 = i
  · rw [hhalf]
    exact hmax.below j hj (by omega) hhalf
  · exact h.links j hj hlo hhalf

/-- **One round takes the gap in the order one place down.** -/
theorem HeapBut.down {lo max : ℕ} (h : HeapBut le f lo i cnt) (hi : 1 ≤ i) (hlo : lo ≤ i)
    (hmax : IsLargest le f i cnt max) (hne : max ≠ i) :
    HeapBut le (f ∘ Equiv.swap i max) lo max cnt := by
  obtain ⟨hhalf, hlt, hcnt⟩ := hmax.place.resolve_left hne
  have hat : (f ∘ Equiv.swap i max) i = f max := by
    rw [Function.comp_apply, Equiv.swap_apply_left]
  have hbelow : (f ∘ Equiv.swap i max) max = f i := by
    rw [Function.comp_apply, Equiv.swap_apply_right]
  have hother : ∀ j, j ≠ i → j ≠ max → (f ∘ Equiv.swap i max) j = f j := fun j hji hjmax => by
    rw [Function.comp_apply, Equiv.swap_apply_of_ne_of_ne hji hjmax]
  constructor
  · intro j hj hloj hjne
    by_cases hji : j / 2 = i
    · rw [hji, hat]
      by_cases hjmax : j = max
      · rw [hjmax, hbelow]
        exact hmax.self
      · rw [hother j (by omega) hjmax]
        exact hmax.below j hj (by omega) hji
    · rw [hother (j / 2) hji hjne]
      by_cases hj' : j = i
      · rw [hj', hat]
        exact h.across max hcnt hhalf (by omega)
      · rw [hother j hj' (by omega)]
        exact h.links j hj hloj hji
  · intro j hj hjmax hlo'
    rw [hhalf, hat, hother j (by omega) (by omega)]
    have hlink := h.links j hj (by omega) (by omega)
    rwa [hjmax] at hlink

variable [DecidableRel le]

/-- `largest` is at a largest of the three. -/
theorem largest_isLargest (hle : Ranking le) (f : ℕ → α) (hi : 1 ≤ i) (cnt : ℕ) :
    IsLargest le f i cnt (largest le f i cnt) := by
  -- first the left one against `i`
  obtain ⟨max, hmax⟩ : ∃ max, max = if 2 * i ≤ cnt ∧ ¬ le (f (2 * i)) (f i) then 2 * i else i :=
    ⟨_, rfl⟩
  have hleft : (max = i ∨ max = 2 * i ∧ 2 * i ≤ cnt) ∧ le (f i) (f max) ∧
      (2 * i ≤ cnt → le (f (2 * i)) (f max)) := by
    rw [hmax]
    split_ifs with h
    · exact ⟨.inr ⟨rfl, h.1⟩, hle.of_not h.2, fun _ => hle.refl _⟩
    · exact ⟨.inl rfl, hle.refl _, fun hcnt => not_not.1 fun hgt => h ⟨hcnt, hgt⟩⟩
  obtain ⟨hplace, hself, hbelow⟩ := hleft
  have hboth : ∀ j, 1 ≤ j → j / 2 = i → j = 2 * i ∨ j = 2 * i + 1 := fun j _ hj => by omega
  simp only [largest, ← hmax]
  -- then the right one against the larger of these
  split_ifs with h
  · have hup : le (f max) (f (2 * i + 1)) := hle.of_not h.2
    refine ⟨.inr ⟨by omega, by omega, h.1⟩, hle.trans _ _ _ hself hup, fun j hj hlo hhalf => ?_⟩
    rcases hboth j hlo hhalf with rfl | rfl
    · exact hle.trans _ _ _ (hbelow hj) hup
    · exact hle.refl _
  · refine ⟨by omega, hself, fun j hj hlo hhalf => ?_⟩
    rcases hboth j hlo hhalf with rfl | rfl
    · exact hbelow hj
    · exact not_not.1 fun hgt => h ⟨hj, hgt⟩

/-- **What `floatDown` returns is heap ordered**, with enough rounds it returns, and it moves
things between `i` and `cnt` only. -/
theorem floatDown_spec {lo : ℕ} (hle : Ranking le) (h : HeapBut le f lo i cnt) (hi : 1 ≤ i)
    (hlo : lo ≤ i) (hcnt : i ≤ cnt) (hrounds : cnt < i * 2 ^ rounds) :
    ∃ g, floatDown le rounds f i cnt = some g ∧ HeapFrom le g lo cnt ∧
      Rearranged i cnt f g := by
  induction rounds generalizing f i with
  | zero => exact absurd hrounds (by omega)
  | succ rounds ih =>
    have hmax := largest_isLargest hle f hi cnt
    rw [floatDown]
    split_ifs with hstop
    · rw [hstop] at hmax
      exact ⟨f, rfl, h.stop hi hmax, .refl i cnt f⟩
    · generalize largest le f i cnt = max at hmax hstop
      obtain ⟨hhalf, hlt, hle'⟩ := hmax.place.resolve_left hstop
      have hfuel : cnt < max * 2 ^ rounds := by
        refine hrounds.trans_le ?_
        rw [Nat.pow_succ, Nat.mul_comm _ 2, ← Nat.mul_assoc]
        exact Nat.mul_le_mul_right _ (by omega)
      obtain ⟨g, hg, hheap, hre⟩ :=
        ih (h.down hi hlo hmax hstop) (by omega) (by omega) hle' hfuel
      exact ⟨g, hg, hheap, (rearranged_swap ⟨Nat.le_refl i, hcnt⟩ ⟨hlt.le, hle'⟩).trans
        (hre.mono hlt.le (Nat.le_refl cnt))⟩

/-! ### The two loops -/

/-- **The first loop makes a heap of all places.** -/
theorem heapUp_spec (hle : Ranking le) (h : HeapFrom le f (i + 1) cnt) (hi : i ≤ cnt)
    (hrounds : cnt < 2 ^ rounds) :
    ∃ g, heapUp le rounds cnt i f = some g ∧ HeapFrom le g 1 cnt ∧ Rearranged 1 cnt f g := by
  induction i generalizing f with
  | zero => exact ⟨f, rfl, h, .refl 1 cnt f⟩
  | succ i ih =>
    obtain ⟨g, hg, hheap, hre⟩ := floatDown_spec hle (h.but (by omega)) (by omega)
      (Nat.le_refl _) hi (hrounds.trans_le (Nat.le_mul_of_pos_left _ (by omega)))
    obtain ⟨g', hg', hheap', hre'⟩ := ih hheap (by omega)
    rw [heapUp, hg]
    exact ⟨g', hg', hheap', (hre.mono (by omega) (Nat.le_refl cnt)).trans hre'⟩

/-- The things after place `i` are in order, and none of them is below a thing before. -/
def SortedAfter (le : α → α → Prop) (f : ℕ → α) (i cnt : ℕ) : Prop :=
  ∀ j k, 1 ≤ j → j ≤ k → i < k → k ≤ cnt → le (f j) (f k)

/-- **The second loop puts the largest thing last**, time after time. -/
theorem takeDown_spec (hle : Ranking le) (h : HeapFrom le f 1 i) (hi : i ≤ cnt)
    (hrounds : cnt < 2 ^ rounds) (hsorted : SortedAfter le f i cnt) :
    ∃ g, takeDown le rounds i f = some g ∧ SortedAfter le g 1 cnt ∧ Rearranged 1 i f g := by
  induction i using Nat.strong_induction_on generalizing f with
  | _ i ih =>
    match i, ih, h, hi, hsorted with
    | 0, _, _, _, hsorted =>
      exact ⟨f, rfl, fun j k hj hjk hk => hsorted j k hj hjk (by omega), .refl 1 0 f⟩
    | 1, _, _, _, hsorted => exact ⟨f, rfl, hsorted, .refl 1 1 f⟩
    | i + 2, ih, h, hi, hsorted =>
      have hswap : Rearranged 1 (i + 2) f (f ∘ Equiv.swap 1 (i + 2)) :=
        rearranged_swap ⟨by omega, by omega⟩ ⟨by omega, by omega⟩
      have hlast : (f ∘ Equiv.swap 1 (i + 2)) (i + 2) = f 1 := by
        rw [Function.comp_apply, Equiv.swap_apply_right]
      have hother : ∀ j, j ≠ 1 → j ≠ i + 2 → (f ∘ Equiv.swap 1 (i + 2)) j = f j :=
        fun j hj hj' => by rw [Function.comp_apply, Equiv.swap_apply_of_ne_of_ne hj hj']
      -- below the new first thing all is as it was
      have hbut : HeapBut le (f ∘ Equiv.swap 1 (i + 2)) 1 1 (i + 1) := by
        refine ⟨fun j hj hlo hne => ?_, fun j hj hhalf hlo => by omega⟩
        rw [hother j (by omega) (by omega), hother (j / 2) hne (by omega)]
        exact h j (by omega) hlo
      obtain ⟨g, hg, hheap, hre⟩ := floatDown_spec hle hbut (by omega) (Nat.le_refl 1)
        (by omega) (by omega : i + 1 < 1 * 2 ^ rounds)
      have hgre : Rearranged 1 (i + 2) f g := hswap.trans (hre.mono (by omega) (by omega))
      have hglast : g (i + 2) = f 1 := (hre.outside (.inr (by omega))).trans hlast
      have hg_sorted : SortedAfter le g (i + 1) cnt := by
        intro j k hj hjk hik hk
        rcases Nat.eq_or_lt_of_le (by omega : i + 2 ≤ k) with rfl | hlt
        · rw [hglast]
          exact hgre.all (P := fun a => le a (f 1)) (fun l hl hl' => h.first hle hl hl') hj hjk
        · rw [hgre.outside (.inr hlt)]
          rcases Nat.lt_or_ge (i + 2) j with hgt | hle'
          · rw [hgre.outside (.inr hgt)]
            exact hsorted j k hj hjk hlt hk
          · exact hgre.all (P := fun a => le a (f k))
              (fun l hl hl' => hsorted l k hl (by omega) hlt hk) hj hle'
      obtain ⟨g', hg', hsorted', hre'⟩ := ih (i + 1) (by omega) hheap (by omega) hg_sorted
      rw [takeDown, hg]
      exact ⟨g', hg', hsorted', hgre.trans (hre'.mono (Nat.le_refl 1) (by omega))⟩

/-- **`heapSort` orders the places `1` to `cnt`** and moves nothing else. -/
theorem heapSort_spec (hle : Ranking le) (f : ℕ → α) (hrounds : cnt < 2 ^ rounds) :
    ∃ g, heapSort le rounds cnt f = some g ∧ (places g cnt).Pairwise le ∧
      Rearranged 1 cnt f g := by
  obtain ⟨g, hg, hheap, hre⟩ := heapUp_spec hle (heapFrom_half (f := f)) (by omega) hrounds
  obtain ⟨g', hg', hsorted, hre'⟩ := takeDown_spec hle hheap (Nat.le_refl cnt) hrounds
    fun j k _ _ hk hk' => absurd hk' (by omega)
  refine ⟨g', by rw [heapSort, hg, Option.bind_some, hg'], ?_, hre.trans hre'⟩
  rw [places, List.pairwise_map]
  have hlt : (List.range' 1 cnt).Pairwise (· < ·) := List.pairwise_lt_range'
  refine hlt.imp_of_mem fun {j k} hj hk hjk => ?_
  rw [List.mem_range'_1] at hj hk
  exact hsorted j k hj.1 hjk.le (by omega) (by omega)

end Basis
end CS162

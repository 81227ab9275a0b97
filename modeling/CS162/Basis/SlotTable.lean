/-
# Tables of slots

A table has slots, numbered from `0` on, and some of them hold an entry, which has a
key.  Where no key is in two slots, putting an entry with a new key into an empty slot
and emptying a slot are insertion into a finite map and removal from it (`held_put`,
`held_clear`).

A cursor goes over the slots from the first on and stops behind each entry that it
shows.  An entry that stays in its slot is shown when the cursor passes it and at no
other time, whatever happens to the other slots (`Shows.count`).
-/

import Mathlib.Data.Nat.Notation
import Mathlib.Logic.Function.Basic

namespace CS162
namespace Basis

section SlotTable

variable {α κ : Type*} {key : α → κ} {shown : α → Prop} {v : ℕ → Option α} {i j : ℕ} {x y : α} {k : κ}

/-- No key is in two slots. -/
def Keyed (key : α → κ) (v : ℕ → Option α) : Prop :=
  ∀ i j x y, v i = some x → v j = some y → key x = key y → i = j

/-- The entry `x` with the key `k` is in a slot. -/
def Held (key : α → κ) (v : ℕ → Option α) (k : κ) (x : α) : Prop := ∃ i, v i = some x ∧ key x = k

theorem Keyed.unique (h : Keyed key v) (hx : Held key v k x) (hy : Held key v k y) : x = y := by
  obtain ⟨i, hi, rfl⟩ := hx
  obtain ⟨j, hj, hkey⟩ := hy
  obtain rfl := h i j x y hi hj hkey.symm
  exact Option.some.inj (hi.symm.trans hj)

/-! ### Insertion and removal -/

theorem Keyed.put (h : Keyed key v) (hnew : ∀ y, ¬Held key v (key x) y) :
    Keyed key (Function.update v i (some x)) := by
  intro a b y z ha hb hkey
  by_cases hai : a = i <;> by_cases hbi : b = i
  · exact hai.trans hbi.symm
  · subst hai
    rw [Function.update_self] at ha
    rw [Function.update_of_ne hbi] at hb
    obtain rfl := Option.some.inj ha
    exact absurd ⟨b, hb, hkey.symm⟩ (hnew z)
  · subst hbi
    rw [Function.update_of_ne hai] at ha
    rw [Function.update_self] at hb
    obtain rfl := Option.some.inj hb
    exact absurd ⟨a, ha, hkey⟩ (hnew y)
  · rw [Function.update_of_ne hai] at ha
    rw [Function.update_of_ne hbi] at hb
    exact h a b y z ha hb hkey

/-- **Insertion**: an empty slot gets an entry. -/
theorem held_put (hfree : v i = none) :
    Held key (Function.update v i (some x)) k y ↔ k = key x ∧ y = x ∨ Held key v k y := by
  constructor
  · rintro ⟨a, ha, rfl⟩
    by_cases hai : a = i
    · subst hai
      rw [Function.update_self] at ha
      obtain rfl := Option.some.inj ha
      exact .inl ⟨rfl, rfl⟩
    · rw [Function.update_of_ne hai] at ha
      exact .inr ⟨a, ha, rfl⟩
  · rintro (⟨rfl, rfl⟩ | ⟨a, ha, rfl⟩)
    · exact ⟨i, Function.update_self .., rfl⟩
    · have hai : a ≠ i := by
        rintro rfl
        rw [hfree] at ha
        cases ha
      exact ⟨a, (Function.update_of_ne hai ..).trans ha, rfl⟩

theorem Keyed.clear (h : Keyed key v) : Keyed key (Function.update v i none) := by
  have hold : ∀ {a z}, Function.update v i none a = some z → v a = some z := by
    intro a z ha
    by_cases hai : a = i
    · subst hai
      rw [Function.update_self] at ha
      cases ha
    · rwa [Function.update_of_ne hai] at ha
  exact fun a b y z ha hb hkey => h a b y z (hold ha) (hold hb) hkey

/-- **Removal**: a slot is emptied. -/
theorem held_clear (h : Keyed key v) (hx : v i = some x) :
    Held key (Function.update v i none) k y ↔ k ≠ key x ∧ Held key v k y := by
  constructor
  · rintro ⟨a, ha, rfl⟩
    have hai : a ≠ i := by
      rintro rfl
      rw [Function.update_self] at ha
      cases ha
    rw [Function.update_of_ne hai] at ha
    exact ⟨fun hkey => hai (h a i y x ha hx hkey), a, ha, rfl⟩
  · rintro ⟨hkey, a, ha, rfl⟩
    have hai : a ≠ i := by
      rintro rfl
      exact hkey (congrArg key (Option.some.inj (ha.symm.trans hx)))
    exact ⟨a, (Function.update_of_ne hai ..).trans ha, rfl⟩

/-- One change of a table: none, an entry with a new key put into an empty slot, or a slot emptied. -/
inductive Changes (key : α → κ) (v : ℕ → Option α) : (ℕ → Option α) → Prop
  | same : Changes key v v
  | put {i : ℕ} {x : α} (free : v i = none) (new : ∀ y, ¬Held key v (key x) y) :
      Changes key v (Function.update v i (some x))
  | clear {i : ℕ} {x : α} (here : v i = some x) : Changes key v (Function.update v i none)

variable {v' : ℕ → Option α}

theorem Changes.keyed (h : Changes key v v') (hkeyed : Keyed key v) : Keyed key v' := by
  cases h with
  | same => exact hkeyed
  | put free new => exact hkeyed.put new
  | clear here => exact hkeyed.clear

/-- An entry whose key is not lost stays in its slot. -/
theorem Changes.stays (h : Changes key v v') (hkeyed : Keyed key v) (hi : v i = some x)
    (hkey : Held key v' (key x) y) : v' i = some x := by
  cases h with
  | same => exact hi
  | @put j z free new =>
    have hij : i ≠ j := by
      rintro rfl
      rw [hi] at free
      cases free
    rw [Function.update_of_ne hij]
    exact hi
  | @clear j z here =>
    have hij : i ≠ j := by
      rintro rfl
      exact ((held_clear hkeyed hi).1 hkey).1 rfl
    rw [Function.update_of_ne hij]
    exact hi

/-! ### Cursors -/

/-- From slot `i` on the cursor goes to slot `j`: behind the next entry that is shown, or, where there
is none, anywhere. -/
inductive Shows (shown : α → Prop) (v : ℕ → Option α) (i : ℕ) : Option α → ℕ → Prop
  | entry {j : ℕ} {x : α} (le : i ≤ j) (here : v j = some x) (visible : shown x)
      (skip : ∀ m y, i ≤ m → m < j → v m = some y → ¬shown y) : Shows shown v i (some x) (j + 1)
  | last {j : ℕ} (le : i ≤ j) (skip : ∀ m y, i ≤ m → v m = some y → ¬shown y) : Shows shown v i none j

/-- Over a slot with nothing to show. -/
theorem Shows.back {r : Option α} (h : Shows shown v (i + 1) r j) (hhere : ∀ y, v i = some y → ¬shown y) :
    Shows shown v i r j := by
  cases h with
  | entry le here visible skip =>
    refine .entry (Nat.le_of_succ_le le) here visible fun m y hm hm' hy => ?_
    rcases Nat.eq_or_lt_of_le hm with rfl | hlt
    · exact hhere y hy
    · exact skip m y hlt hm' hy
  | last le skip =>
    refine .last (Nat.le_of_succ_le le) fun m y hm hy => ?_
    rcases Nat.eq_or_lt_of_le hm with rfl | hlt
    · exact hhere y hy
    · exact skip m y hlt hy

/-- **An entry is shown when the cursor passes it.** -/
theorem Shows.count [DecidableEq κ] {s : ℕ} {r : Option α} (h : Shows shown v i r j)
    (hkeyed : Keyed key v) (hs : v s = some x) (hx : shown x) :
    (if s < j then 1 else 0) =
      (if s < i then 1 else 0) + if r.map key = some (key x) then 1 else 0 := by
  cases h with
  | @entry j y le here visible skip =>
    simp only [Option.map_some, Option.some.injEq]
    by_cases hkey : key y = key x
    · obtain rfl := hkeyed j s y x here hs hkey
      rw [if_pos (Nat.lt_succ_self _), if_neg (Nat.not_lt.2 le), if_pos hkey]
    · have hsj : s ≠ j := by
        rintro rfl
        exact hkey (congrArg key (Option.some.inj (here.symm.trans hs)))
      have hout : ¬(i ≤ s ∧ s < j) := fun hin => skip s x hin.1 hin.2 hs hx
      rw [if_neg hkey, Nat.add_zero]
      refine if_congr ?_ rfl rfl
      omega
  | last le skip =>
    have hlt : s < i := Nat.lt_of_not_le fun hle => skip s x hle hs hx
    rw [if_pos (Nat.lt_of_lt_of_le hlt le), if_pos hlt]
    rfl

theorem Shows.le {r : Option α} (h : Shows shown v i r j) : i ≤ j := by
  cases h with
  | entry le here visible skip => exact Nat.le_succ_of_le le
  | last le skip => exact le

/-- Where nothing more is shown, the entry has been passed. -/
theorem Shows.passed {s : ℕ} (h : Shows shown v i none j) (hs : v s = some x) (hx : shown x) : s < j := by
  cases h with
  | last le skip => exact Nat.lt_of_lt_of_le (Nat.lt_of_not_le fun hle => skip s x hle hs hx) le

end SlotTable

end Basis
end CS162

/-
# Joining free neighbours

Records, some of them free, in a list.  `absorbed free join r l` is the list `r :: l` after `r` has
taken in the free records that follow it; `merged free join l` is the list after one pass that joins
pairs of free neighbours and goes on behind each pair.

In a list without free neighbours (`Spread`) where one record has become free, taking in what is
behind it and one such pass are enough (`Spread.merged_append`, `Spread.absorbed`).
-/

import Mathlib.Data.List.Chain

namespace CS162
namespace Basis

variable {ρ : Type} {free : ρ → Bool} {join : ρ → ρ → ρ} {r c : ρ} {l l' : List ρ}

/-- No two neighbours are free. -/
def Spread {ρ : Type} (free : ρ → Bool) (l : List ρ) : Prop :=
  l.IsChain fun r c => ¬(free r = true ∧ free c = true)

/-- The record takes the free ones behind it in. -/
def absorbed {ρ : Type} (free : ρ → Bool) (join : ρ → ρ → ρ) (r : ρ) : List ρ → List ρ
  | [] => [r]
  | c :: l => if free c then absorbed free join (join r c) l else r :: c :: l

/-- One pass over pairs of neighbours. -/
def merged {ρ : Type} (free : ρ → Bool) (join : ρ → ρ → ρ) : List ρ → List ρ
  | [] => []
  | [r] => [r]
  | r :: c :: l => if free r && free c then join r c :: merged free join l
    else r :: merged free join (c :: l)

theorem Spread.tail (h : Spread free (r :: l)) : Spread free l := List.IsChain.tail h

theorem Spread.append_left (h : Spread free (l ++ l')) : Spread free l :=
  (List.isChain_append.1 h).1

theorem Spread.append_right (h : Spread free (l ++ l')) : Spread free l' :=
  (List.isChain_append.1 h).2.1

theorem spread_cons : Spread free (r :: l) ↔
    (∀ c ∈ l.head?, ¬(free r = true ∧ free c = true)) ∧ Spread free l :=
  List.isChain_cons

/-- A record in use keeps apart. -/
theorem Spread.between (hr : free r = false) (hl : Spread free l) (hl' : Spread free l') :
    Spread free (l ++ r :: l') := by
  have hused : ¬free r = true := by simp [hr]
  refine List.isChain_append.2 ⟨hl, spread_cons.2 ⟨fun c _ hrc => hused hrc.1, hl'⟩, ?_⟩
  intro x _ y hy hxy
  rw [List.head?_cons, Option.mem_some_iff] at hy
  exact hused (hy ▸ hxy.2)

theorem Spread.absorbed (h : Spread free l) (r : ρ) : Spread free (absorbed free join r l) := by
  induction l generalizing r with
  | nil => exact .singleton r
  | cons c l ih =>
    unfold Basis.absorbed
    by_cases hc : free c = true
    · rw [if_pos hc]
      exact ih h.tail (join r c)
    · rw [if_neg hc]
      exact List.isChain_cons_cons.2 ⟨fun hrc => hc hrc.2, h⟩

theorem merged_cons_of_not (h : ¬(free r = true ∧ ∃ c ∈ l.head?, free c = true)) :
    merged free join (r :: l) = r :: merged free join l := by
  cases l with
  | nil => rfl
  | cons c l =>
    have hrc : ¬(free r && free c) = true := fun hrc =>
      h ⟨(Bool.and_eq_true ..▸ hrc).1, c, rfl, (Bool.and_eq_true .. ▸ hrc).2⟩
    rw [merged, if_neg hrc]

/-- A pass finds nothing to join. -/
theorem Spread.merged_eq (h : Spread free l) : merged free join l = l := by
  induction l with
  | nil => rfl
  | cons r l ih =>
    rw [merged_cons_of_not, ih h.tail]
    rintro ⟨hr, c, hc, hfree⟩
    exact (spread_cons.1 h).1 c hc ⟨hr, hfree⟩

/-- The first record stays free or in use. -/
theorem free_head_merged (hjoin : ∀ r c, free (join r c) = free r) :
    ∀ x ∈ (merged free join (r :: l)).head?, free x = free r := by
  intro x hx
  cases l with
  | nil =>
    rw [merged, List.head?_cons, Option.mem_some_iff] at hx
    rw [← hx]
  | cons c l =>
    unfold merged at hx
    split_ifs at hx
    · rw [List.head?_cons, Option.mem_some_iff] at hx
      rw [← hx, hjoin]
    · rw [List.head?_cons, Option.mem_some_iff] at hx
      rw [← hx]

/-- **One pass is enough** where two lists without free neighbours meet. -/
theorem Spread.merged_append (hjoin : ∀ r c, free (join r c) = free r) (h : Spread free l)
    (h' : Spread free l') : Spread free (merged free join (l ++ l')) := by
  induction l with
  | nil =>
    rw [List.nil_append, h'.merged_eq]
    exact h'
  | cons r l ih =>
    by_cases hjoins : free r = true ∧ ∃ c ∈ (l ++ l').head?, free c = true
    · obtain ⟨hr, c, hc, hfree⟩ := hjoins
      cases l with
      | cons d l =>
        -- inside the first list there is nothing to join
        obtain rfl : d = c := Option.mem_some_iff.1 hc
        exact absurd ⟨hr, hfree⟩ ((spread_cons.1 h).1 d rfl)
      | nil =>
        cases l' with
        | nil => cases hc
        | cons d l' =>
          obtain rfl : d = c := Option.mem_some_iff.1 hc
          rw [List.cons_append, List.nil_append, merged, if_pos (by rw [hr, hfree]; rfl),
            h'.tail.merged_eq]
          refine spread_cons.2 ⟨fun x hx hjx => ?_, h'.tail⟩
          exact (spread_cons.1 h').1 x hx ⟨hfree, hjx.2⟩
    · rw [List.cons_append, merged_cons_of_not hjoins]
      refine spread_cons.2 ⟨fun x hx hrx => ?_, ih h.tail⟩
      cases hll : l ++ l' with
      | nil =>
        rw [hll] at hx
        cases hx
      | cons d rest =>
        rw [hll] at hx hjoins
        have hd := free_head_merged hjoin x hx
        exact hjoins ⟨hrx.1, d, rfl, hd ▸ hrx.2⟩

/-! ### The records in use -/

theorem filter_absorbed (hjoin : ∀ r c, free (join r c) = free r) (hr : free r = true) :
    (absorbed free join r l).filter (fun x => !free x) = l.filter fun x => !free x := by
  induction l generalizing r with
  | nil => simp [absorbed, hr]
  | cons c l ih =>
    unfold absorbed
    by_cases hc : free c = true
    · rw [if_pos hc, ih ((hjoin r c).trans hr)]
      simp [hc]
    · rw [if_neg hc]
      simp [hr]

theorem filter_merged (hjoin : ∀ r c, free (join r c) = free r) :
    (merged free join l).filter (fun x => !free x) = l.filter fun x => !free x := by
  fun_induction merged free join l with
  | case1 => rfl
  | case2 r => rfl
  | case3 r c l hrc ih =>
    rw [Bool.and_eq_true] at hrc
    simp [hjoin, hrc, ih]
  | case4 r c l hrc ih => rw [List.filter_cons, List.filter_cons, ih]

end Basis
end CS162

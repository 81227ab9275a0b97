/-
# The second chance algorithm

`n` slots stand in a circle, each with a bit that says whether it was used of late, and a hand
points at one of them.  To choose a victim, the hand goes from slot to slot (`SecondChance`): a
slot whose bit is set loses the bit and is passed, and the first whose bit is clear is chosen.
After a full round all bits are clear, so there is a victim (`exists_secondChance`).
-/

import Mathlib.Algebra.GroupWithZero.Nat
import Mathlib.Data.Fintype.Card

namespace CS162
namespace Basis

variable {n : ℕ} [NeZero n] {use use' : Fin n → Bool} {hand victim : Fin n}

/-- **The choice of a victim**, the hand pointing at it afterwards, and the bits left. -/
inductive SecondChance : (Fin n → Bool) → Fin n → Fin n → (Fin n → Bool) → Prop
  | found {use : Fin n → Bool} {hand : Fin n} (h : use (hand + 1) = false) :
      SecondChance use hand (hand + 1) use
  | pass {use use' : Fin n → Bool} {hand victim : Fin n} (h : use (hand + 1) = true)
      (rest : SecondChance (Function.update use (hand + 1) false) (hand + 1) victim use') :
      SecondChance use hand victim use'

/-- No bit is set. -/
theorem SecondChance.clear (h : SecondChance use hand victim use') {i : Fin n}
    (hi : use i = false) : use' i = false := by
  induction h with
  | found _ => exact hi
  | pass hset _ ih =>
    refine ih ?_
    rw [Function.update_of_ne, hi]
    rintro rfl
    rw [hset] at hi
    cases hi

/-- The slot after the hand is chosen, or its bit is cleared. -/
theorem SecondChance.next (h : SecondChance use hand victim use') :
    victim = hand + 1 ∨ use (hand + 1) = true ∧ use' (hand + 1) = false := by
  induction h with
  | found _ => exact .inl rfl
  | pass hset rest _ => exact .inr ⟨hset, rest.clear (Function.update_self ..)⟩

/-- **There is a victim.**  By induction on the number of bits that are set. -/
theorem exists_secondChance (use : Fin n → Bool) (hand : Fin n) :
    ∃ victim use', SecondChance use hand victim use' := by
  induction hcard : (Finset.univ.filter fun i => use i = true).card using Nat.strong_induction_on
    generalizing use hand with
  | _ k ih =>
    cases hnext : use (hand + 1) with
    | false => exact ⟨_, _, .found hnext⟩
    | true =>
      have hless : (Finset.univ.filter fun i =>
          Function.update use (hand + 1) false i = true).card < k := by
        rw [← hcard]
        refine Finset.card_lt_card ((Finset.ssubset_iff_of_subset fun i hi => ?_).2
          ⟨hand + 1, (Finset.mem_filter_univ _).2 hnext, ?_⟩)
        · rw [Finset.mem_filter_univ] at hi ⊢
          by_cases heq : i = hand + 1
          · rw [heq, hnext]
          · rwa [Function.update_of_ne heq] at hi
        · rw [Finset.mem_filter_univ, Function.update_self]
          exact Bool.false_ne_true
      obtain ⟨victim, use', hrest⟩ := ih _ hless _ (hand + 1) rfl
      exact ⟨victim, use', .pass hnext hrest⟩

end Basis
end CS162

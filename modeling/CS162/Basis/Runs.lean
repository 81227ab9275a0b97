/-
# Runs of a system, and conditions on their steps

`Throughout step P s is` says that, from `s`, the steps `is` are taken one after the
other and each finds a state in which `P` allows it.  Steps that cannot be taken end the
run, and a step may lead to several states.

Where an invariant holds at the start, and what meets `Q` keeps it, two conditions that
agree under it agree of whole runs (`throughout_iff`), and every state that a run leads to
has it (`Leads.inv`).  Steps that make a number smaller lead to a state without steps
(`exists_last`).
-/

import Mathlib.Logic.Relation
import Mathlib.Tactic.Common

namespace CS162
namespace Basis

variable {σ ι : Type} {step : σ → ι → σ → Prop} {P Q : σ → ι → Prop} {I : σ → Prop} {s t : σ}

/-- Every step is taken in a state in which `P` holds of it. -/
def Throughout {σ ι : Type} (step : σ → ι → σ → Prop) (P : σ → ι → Prop) : σ → List ι → Prop
  | _, [] => True
  | s, i :: is => P s i ∧ ∀ t, step s i t → Throughout step P t is

/-- `t` is reached from `s` by steps of which `Q` holds. -/
def Leads {σ ι : Type} (step : σ → ι → σ → Prop) (Q : σ → ι → Prop) : σ → σ → Prop :=
  Relation.ReflTransGen fun s t => ∃ i, Q s i ∧ step s i t

theorem Leads.next {i : ι} {u : σ} (h : Leads step Q s t) (hQ : Q t i) (hstep : step t i u) :
    Leads step Q s u :=
  Relation.ReflTransGen.tail h ⟨i, hQ, hstep⟩

/-- **What the steps keep holds of every state that is reached.** -/
theorem Leads.inv (h : Leads step Q s t) (hkeep : ∀ {s i t}, I s → Q s i → step s i t → I t)
    (hs : I s) : I t := by
  induction h with
  | refl => exact hs
  | tail _ hstep ih =>
    obtain ⟨i, hQ, hi⟩ := hstep
    exact hkeep ih hQ hi

/-- **A condition that implies another, implies it throughout.** -/
theorem Throughout.imp (hkeep : ∀ {s i t}, I s → Q s i → step s i t → I t)
    (hQP : ∀ {s i}, I s → Q s i → P s i) {is : List ι} (hs : I s) (h : Throughout step Q s is) :
    Throughout step P s is := by
  induction is generalizing s with
  | nil => trivial
  | cons i is ih =>
    obtain ⟨hQ, hrest⟩ := h
    exact ⟨hQP hs hQ, fun t hstep => ih (hkeep hs hQ hstep) (hrest t hstep)⟩

/-- **Conditions that agree under an invariant agree of whole runs.** -/
theorem throughout_iff (hkeep : ∀ {s i t}, I s → Q s i → step s i t → I t)
    (hPQ : ∀ {s i}, I s → (P s i ↔ Q s i)) (hs : I s) (is : List ι) :
    Throughout step P s is ↔ Throughout step Q s is :=
  ⟨fun h => h.imp (fun hI hP hstep => hkeep hI ((hPQ hI).1 hP) hstep) (fun hI => (hPQ hI).1) hs,
    fun h => h.imp (fun hI hQ hstep => hkeep hI hQ hstep) (fun hI => (hPQ hI).2) hs⟩

/-- **Steps that make a number smaller come to an end**, in a state that has no step. -/
theorem exists_last {step : σ → σ → Prop} (size : σ → ℕ)
    (hkeep : ∀ {s t}, I s → step s t → I t ∧ size t < size s) (hs : I s) :
    ∃ t, Relation.ReflTransGen step s t ∧ I t ∧ ∀ u, ¬step t u := by
  induction hn : size s using Nat.strongRecOn generalizing s with
  | _ n ih =>
    by_cases hstep : ∃ t, step s t
    · obtain ⟨t, hst⟩ := hstep
      obtain ⟨ht, hlt⟩ := hkeep hs hst
      obtain ⟨u, hreach, hu⟩ := ih _ (hn ▸ hlt) ht rfl
      exact ⟨u, .head hst hreach, hu⟩
    · exact ⟨s, .refl, hs, not_exists.1 hstep⟩

end Basis
end CS162

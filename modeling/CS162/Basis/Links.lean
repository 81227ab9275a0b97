/-
# Links both ways

In a chain of elements, `next` leads from each to the one behind it and `prev` back.  Putting
an element between two others, or taking one out, changes two links each way at most
(`DoublyLinked.insert`, `DoublyLinked.remove`).
-/

import Mathlib.Data.List.Chain

namespace CS162
namespace Basis

variable {α : Type} {prev next prev' next' : α → α} {l pre post : List α} {a b e : α}

/-- Each element's `next` is the one behind it, whose `prev` it is. -/
def DoublyLinked {α : Type} (prev next : α → α) (l : List α) : Prop :=
  l.IsChain fun x y => next x = y ∧ prev y = x

/-- The last `next` and the first `prev` do not matter. -/
theorem DoublyLinked.congr (h : DoublyLinked prev next l) (hnext : ∀ x ∈ l.dropLast, next' x = next x)
    (hprev : ∀ x ∈ l.tail, prev' x = prev x) : DoublyLinked prev' next' l := by
  induction l with
  | nil => exact .nil
  | cons x l ih =>
    cases l with
    | nil => exact .singleton x
    | cons y l =>
      obtain ⟨⟨hx, hy⟩, hrest⟩ := List.isChain_cons_cons.1 h
      refine List.isChain_cons_cons.2 ⟨⟨?_, ?_⟩, ih hrest (fun z hz => ?_) fun z hz => ?_⟩
      · exact (hnext x List.mem_cons_self).trans hx
      · exact (hprev y List.mem_cons_self).trans hy
      · exact hnext z (List.mem_cons_of_mem x hz)
      · exact hprev z (List.mem_cons_of_mem y hz)

/-- What is before `a` and what is behind `b`, after links between the two have changed. -/
theorem DoublyLinked.parts (hpre : DoublyLinked prev next (pre ++ [a])) (hpost : DoublyLinked prev next (b :: post))
    (hnext : ∀ x ∈ pre ++ b :: post, next' x = next x)
    (hprev : ∀ x ∈ pre ++ a :: post, prev' x = prev x) :
    DoublyLinked prev' next' (pre ++ [a]) ∧ DoublyLinked prev' next' (b :: post) := by
  constructor
  · refine hpre.congr (fun x hx => ?_) fun x hx => ?_
    · rw [List.dropLast_concat] at hx
      exact hnext x (List.mem_append_left _ hx)
    · refine hprev x ?_
      rcases List.mem_append.1 (List.mem_of_mem_tail hx) with hx | hx
      · exact List.mem_append_left _ hx
      · exact List.mem_append_right _ (List.mem_cons.2 (.inl (List.mem_singleton.1 hx)))
  · refine hpost.congr (fun x hx => ?_) fun x hx => ?_
    · exact hnext x (List.mem_append_right _ ((List.dropLast_sublist _).subset hx))
    · exact hprev x (List.mem_append_right _ (List.mem_cons_of_mem a hx))

/-- **`e` is put between `a` and `b`.** -/
theorem DoublyLinked.insert (h : DoublyLinked prev next (pre ++ a :: b :: post))
    (hae : next' a = e ∧ prev' e = a) (heb : next' e = b ∧ prev' b = e)
    (hnext : ∀ x ∈ pre ++ b :: post, next' x = next x)
    (hprev : ∀ x ∈ pre ++ a :: post, prev' x = prev x) :
    DoublyLinked prev' next' (pre ++ a :: e :: b :: post) := by
  obtain ⟨hpre, -, hpost⟩ := List.isChain_append_cons_cons.1 h
  obtain ⟨hpre', hpost'⟩ := DoublyLinked.parts hpre hpost hnext hprev
  exact List.isChain_append_cons_cons.2 ⟨hpre', hae, List.isChain_cons_cons.2 ⟨heb, hpost'⟩⟩

/-- **`e` is taken from between `a` and `b`.** -/
theorem DoublyLinked.remove (h : DoublyLinked prev next (pre ++ a :: e :: b :: post))
    (hab : next' a = b ∧ prev' b = a) (hnext : ∀ x ∈ pre ++ b :: post, next' x = next x)
    (hprev : ∀ x ∈ pre ++ a :: post, prev' x = prev x) :
    DoublyLinked prev' next' (pre ++ a :: b :: post) := by
  obtain ⟨hpre, -, hrest⟩ := List.isChain_append_cons_cons.1 h
  obtain ⟨-, hpost⟩ := List.isChain_cons_cons.1 hrest
  obtain ⟨hpre', hpost'⟩ := DoublyLinked.parts hpre hpost hnext hprev
  exact List.isChain_append_cons_cons.2 ⟨hpre', hab, hpost'⟩

end Basis
end CS162

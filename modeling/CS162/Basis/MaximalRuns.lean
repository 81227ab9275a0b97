/-
# Words of a text

The maximal runs of the elements of a list that satisfy `p`, in order (`MaximalRuns`).  They are
found by splitting the list at the other elements and leaving out what is empty (`words`), and
by a scan that carries the run it is in (`wordsFrom`).
-/

import Mathlib.Data.List.Basic
import Mathlib.Tactic.Common

namespace CS162
namespace Basis

variable {α : Type} {p : α → Bool}

/-- **The maximal runs of `p` in a list**, in order: what a run consists of, the end of the list
or an element without `p` after it, and the runs of the rest. -/
inductive MaximalRuns (p : α → Bool) : List α → List (List α) → Prop
  | nil : MaximalRuns p [] []
  | skip {a : α} {l : List α} {ws : List (List α)} (ha : p a = false) (h : MaximalRuns p l ws) :
      MaximalRuns p (a :: l) ws
  | last {w : List α} (hne : w ≠ []) (hw : ∀ a ∈ w, p a = true) : MaximalRuns p w [w]
  | word {w l : List α} {a : α} {ws : List (List α)} (hne : w ≠ []) (hw : ∀ a ∈ w, p a = true)
      (ha : p a = false) (h : MaximalRuns p l ws) : MaximalRuns p (w ++ a :: l) (w :: ws)

/-- Split at the elements without `p`, and leave out what is empty. -/
def words (p : α → Bool) (l : List α) : List (List α) :=
  (l.splitOnP fun a => !p a).filter fun w => !w.isEmpty

/-- Scan a list, of which the run so far is `w`. -/
def wordsFrom (p : α → Bool) : List α → List α → List (List α)
  | w, [] => if w.isEmpty then [] else [w]
  | w, a :: l =>
    if p a then wordsFrom p (w ++ [a]) l
    else if w.isEmpty then wordsFrom p [] l
    else w :: wordsFrom p [] l

theorem isEmpty_of_ne_nil {w : List α} (hne : w ≠ []) : w.isEmpty = false :=
  List.isEmpty_eq_false_iff.2 hne

/-! ### Splitting -/

/-- The words are the maximal runs. -/
theorem MaximalRuns.words_eq {l : List α} {ws : List (List α)} (h : MaximalRuns p l ws) :
    words p l = ws := by
  induction h with
  | nil => rfl
  | skip ha h ih =>
    rw [words, List.splitOnP_cons_eq_if_modifyHead, if_pos (by rw [ha]; rfl)]
    exact ih
  | last hne hw =>
    have hsingle : ∀ a ∈ _, (!p a) = false := fun a ha => by rw [hw a ha]; rfl
    rw [words, List.splitOnP_eq_singleton hsingle, List.filter_cons_of_pos, List.filter_nil]
    rw [isEmpty_of_ne_nil hne]
    rfl
  | word hne hw ha h ih =>
    have hfirst : ∀ a ∈ _, (!p a) = false := fun a ha => by rw [hw a ha]; rfl
    rw [words, List.splitOnP_append_cons_of_forall_mem hfirst _ (by rw [ha]; rfl), List.filter_cons_of_pos]
    · exact congrArg _ ih
    · rw [isEmpty_of_ne_nil hne]
      rfl

/-! ### Scanning -/

/-- **A scan finds the maximal runs** of what it has read of the run it is in, and of the rest. -/
theorem maximalRuns_wordsFrom (w l : List α) (hw : ∀ a ∈ w, p a = true) :
    MaximalRuns p (w ++ l) (wordsFrom p w l) := by
  induction l generalizing w with
  | nil =>
    rw [wordsFrom, List.append_nil]
    match w with
    | [] => exact .nil
    | a :: w => exact .last (List.cons_ne_nil _ _) hw
  | cons a l ih =>
    rw [wordsFrom]
    by_cases ha : p a = true
    · rw [if_pos ha]
      have hwa : ∀ b ∈ w ++ [a], p b = true :=
        List.forall_mem_append.2 ⟨hw, fun b hb => List.mem_singleton.1 hb ▸ ha⟩
      have h := ih (w ++ [a]) hwa
      rwa [List.append_assoc] at h
    · have hfalse := eq_false_of_ne_true ha
      have h := ih [] (fun b hb => absurd hb List.not_mem_nil)
      rw [if_neg ha]
      match w with
      | [] => exact .skip hfalse h
      | b :: w => exact .word (List.cons_ne_nil _ _) hw hfalse h

theorem maximalRuns_words (l : List α) : MaximalRuns p l (words p l) := by
  have h := maximalRuns_wordsFrom (p := p) [] l fun a ha => absurd ha List.not_mem_nil
  rw [List.nil_append] at h
  rwa [h.words_eq]

/-- **A list has one list of maximal runs.** -/
theorem maximalRuns_iff {l : List α} {ws : List (List α)} : MaximalRuns p l ws ↔ words p l = ws :=
  ⟨MaximalRuns.words_eq, fun h => h ▸ maximalRuns_words l⟩

theorem wordsFrom_nil_eq (l : List α) : wordsFrom p [] l = words p l :=
  (maximalRuns_wordsFrom (p := p) [] l fun _ ha => absurd ha List.not_mem_nil).words_eq.symm

/-- In a run, there is a run. -/
theorem wordsFrom_ne_nil {w : List α} (hne : w ≠ []) (l : List α) : wordsFrom p w l ≠ [] := by
  induction l generalizing w with
  | nil =>
    rw [wordsFrom, isEmpty_of_ne_nil hne]
    exact List.cons_ne_nil _ _
  | cons a l ih =>
    rw [wordsFrom, isEmpty_of_ne_nil hne]
    split
    · exact ih (List.append_ne_nil_of_left_ne_nil hne _)
    · exact List.cons_ne_nil _ _

end Basis
end CS162

/-
# Links one way

`Trail next null a l`: from `a`, `next` leads through the elements `l`, one after the other, to
`null`.  There is one such list (`Trail.unique`), so no element is on it twice (`Trail.nodup`).

A change of `next` behind the list's first elements leaves a trail through what is then behind
them (`Trail.replace`).
-/

import Mathlib.Data.List.Nodup

namespace CS162
namespace Basis

variable {κ : Type} {next next' : κ → κ} {null a x : κ} {l l' pre post : List κ}

/-- `next` leads from the first element through the list to `null`. -/
def Trail {κ : Type} (next : κ → κ) (null : κ) : κ → List κ → Prop
  | a, [] => a = null
  | a, x :: l => a = x ∧ x ≠ null ∧ Trail next null (next x) l

theorem Trail.head (h : Trail next null a l) : a = l.headD null := by
  cases l with
  | nil => exact h
  | cons x l => exact h.1

/-- **There is one list from an element on.** -/
theorem Trail.unique (h : Trail next null a l) (h' : Trail next null a l') : l = l' := by
  induction l generalizing a l' with
  | nil =>
    cases l' with
    | nil => rfl
    | cons y l' => exact absurd (h'.1.symm.trans h) h'.2.1
  | cons x l ih =>
    cases l' with
    | nil => exact absurd (h.1.symm.trans h') h.2.1
    | cons y l' =>
      obtain ⟨rfl, -, hrest⟩ := h
      obtain ⟨rfl, -, hrest'⟩ := h'
      rw [ih hrest hrest']

/-- The list from the element behind `pre` on. -/
theorem Trail.drop (h : Trail next null a (pre ++ post)) :
    Trail next null (post.headD null) post := by
  induction pre generalizing a with
  | nil =>
    have ha : a = post.headD null := h.head
    rwa [ha] at h
  | cons x pre ih => exact ih h.2.2

/-- **No element is on the list twice**: what follows it is one list. -/
theorem Trail.nodup (h : Trail next null a l) : l.Nodup := by
  induction l generalizing a with
  | nil => exact List.nodup_nil
  | cons x l ih =>
    refine List.nodup_cons.2 ⟨fun hx => ?_, ih h.2.2⟩
    obtain ⟨pre, post, rfl⟩ := List.append_of_mem hx
    have hsplit : Trail next null a ((x :: pre) ++ x :: post) := h
    have hback : Trail next null x (x :: post) := hsplit.drop
    have hloop : Trail next null x (x :: (pre ++ x :: post)) := ⟨rfl, h.2.1, h.2.2⟩
    have hlength := congrArg List.length (hloop.unique hback)
    rw [List.length_cons, List.length_append, List.length_cons] at hlength
    omega

/-- The list depends on its elements' `next` alone. -/
theorem Trail.congr (h : Trail next null a l) (hsame : ∀ x ∈ l, next' x = next x) :
    Trail next' null a l := by
  induction l generalizing a with
  | nil => exact h
  | cons x l ih =>
    refine ⟨h.1, h.2.1, ?_⟩
    rw [hsame x List.mem_cons_self]
    exact ih h.2.2 fun y hy => hsame y (List.mem_cons_of_mem x hy)

/-- **The end of a list is replaced.** -/
theorem Trail.replace (h : Trail next null a (pre ++ post)) (hsame : ∀ x ∈ pre, next' x = next x)
    (hpost : Trail next' null (post.headD null) l') : Trail next' null a (pre ++ l') := by
  induction pre generalizing a with
  | nil =>
    have ha : a = post.headD null := h.head
    rwa [ha]
  | cons x pre ih =>
    refine ⟨h.1, h.2.1, ?_⟩
    rw [hsame x List.mem_cons_self]
    exact ih h.2.2 fun y hy => hsame y (List.mem_cons_of_mem x hy)

end Basis
end CS162

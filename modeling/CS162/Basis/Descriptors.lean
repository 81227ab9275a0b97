/-
# File descriptors

A process's table of file descriptors: the descriptions that its numbers refer to.  `open` gives the
lowest number that is free (`opened`, `lowest`), `dup2` and `close` are as in POSIX: closing a number
that is free, or duplicating one, changes nothing.

Every lemma is about `desc`, the description that a number refers to.
-/

import Mathlib.Data.List.Basic

namespace CS162
namespace Basis

/-- The numbers behind the end of the list are free. -/
structure FdTable (δ : Type) where
  entries : List (Option δ)

namespace FdTable

variable {δ : Type} {t : FdTable δ} {d : δ} {e : Option δ} {fd new i k : ℕ}

def desc (t : FdTable δ) (fd : ℕ) : Option δ := t.entries[fd]?.join

def set (t : FdTable δ) (fd : ℕ) (e : Option δ) : FdTable δ where
  entries :=
    if fd < t.entries.length then t.entries.set fd e
    else t.entries ++ List.replicate (fd - t.entries.length) none ++ [e]

/-- The lowest number that is free. -/
def lowest (t : FdTable δ) : ℕ := t.entries.findIdx Option.isNone

/-- `open`, which returns `t.lowest`. -/
def opened (t : FdTable δ) (d : δ) : FdTable δ := t.set t.lowest (some d)

def close (t : FdTable δ) (fd : ℕ) : FdTable δ := t.set fd none

def dup2 (t : FdTable δ) (fd new : ℕ) : FdTable δ :=
  match t.desc fd with
  | none => t
  | some d => t.set new (some d)

/-- `open`, `dup2` onto a number and `close`, as for a redirection. -/
def openOnto (t : FdTable δ) (d : δ) (new : ℕ) : FdTable δ :=
  ((t.opened d).dup2 t.lowest new).close t.lowest

/-- Setting one descriptor. -/
theorem desc_set : (t.set fd e).desc i = if i = fd then e else t.desc i := by
  unfold desc set
  dsimp only
  split_ifs with hlt heq heq
  · rw [heq, List.getElem?_set_self hlt]
    rfl
  · rw [List.getElem?_set_ne (Ne.symm heq)]
  · have hlength : (t.entries ++ List.replicate (fd - t.entries.length) none).length = i := by
      rw [List.length_append, List.length_replicate]
      omega
    rw [← hlength, List.getElem?_concat_length]
    rfl
  · rcases Nat.lt_or_ge i fd with hless | hmore
    · rw [List.getElem?_append_left (by rw [List.length_append, List.length_replicate]; omega),
        List.getElem?_append]
      split_ifs with hin
      · rfl
      · rw [List.getElem?_replicate, if_pos (by omega), List.getElem?_eq_none (by omega)]
        rfl
    · rw [List.getElem?_eq_none, List.getElem?_eq_none (by omega)]
      rw [List.length_append, List.length_append, List.length_replicate, List.length_singleton]
      omega

theorem desc_close : (t.close fd).desc i = if i = fd then none else t.desc i := desc_set

theorem desc_dup2 (h : t.desc fd = some d) :
    (t.dup2 fd new).desc i = if i = new then some d else t.desc i := by
  rw [dup2, h]
  exact desc_set

theorem desc_lowest : t.desc t.lowest = none := by
  unfold desc lowest
  cases hfree : t.entries[t.entries.findIdx Option.isNone]? with
  | none => rfl
  | some e => exact Option.isNone_iff_eq_none.1 (List.findIdx_of_getElem?_eq_some hfree)

theorem desc_opened : (t.opened d).desc i = if i = t.lowest then some d else t.desc i := desc_set

/-- The numbers in front are in use. -/
theorem le_lowest (h : ∀ i < k, (t.desc i).isSome) : k ≤ t.lowest := by
  refine Nat.le_of_not_lt fun hlt => ?_
  have hsome := h t.lowest hlt
  rw [desc_lowest] at hsome
  exact absurd hsome Bool.false_ne_true

/-- **A redirection changes one number**, if that was in use. -/
theorem desc_openOnto (h : (t.desc new).isSome) :
    (t.openOnto d new).desc i = if i = new then some d else t.desc i := by
  have hne : new ≠ t.lowest := by
    rintro rfl
    rw [desc_lowest] at h
    exact absurd h Bool.false_ne_true
  have hopened : (t.opened d).desc t.lowest = some d := by rw [desc_opened, if_pos rfl]
  rw [openOnto, desc_close, desc_dup2 hopened, desc_opened]
  split_ifs with hlowest hnew hnew
  · exact absurd (hnew.symm.trans hlowest) hne
  · rw [hlowest, desc_lowest]
  · rfl
  · rfl

end FdTable

end Basis
end CS162

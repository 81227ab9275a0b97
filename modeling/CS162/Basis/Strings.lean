/-
# Functions of Rust's `str`

White space as in `char::is_whitespace`, and `str::split_whitespace`, `str::trim` and
`str::lines`, on texts.  Trimming does not change the words of a text (`splitWhitespace_trim`).
-/

import CS162.Basis.MaximalRuns
import CS162.Basis.Utf8
import Mathlib.Data.List.DropRight

namespace CS162
namespace Basis

/-- `char::is_whitespace`. -/
def isWhitespace (c : Char) : Bool :=
  (0x9 ≤ c.toNat && c.toNat ≤ 0xd) || c.toNat == 0x20 || c.toNat == 0x85 || c.toNat == 0xa0 ||
    c.toNat == 0x1680 || (0x2000 ≤ c.toNat && c.toNat ≤ 0x200a) || c.toNat == 0x2028 ||
    c.toNat == 0x2029 || c.toNat == 0x202f || c.toNat == 0x205f || c.toNat == 0x3000

/-- `str::split_whitespace`. -/
def splitWhitespace (s : Text) : List Text := words (fun c => !isWhitespace c) s

/-- `str::trim`. -/
def trim (s : Text) : Text := (s.dropWhile isWhitespace).rdropWhile isWhitespace

/-- A line without the carriage return before its line feed. -/
def stripCr (line : Text) : Text := if line.getLast? = some '\r' then line.dropLast else line

/-- The lines of a text, of which `line` is what has been read of the first one. -/
def linesFrom : Text → Text → List Text
  | line, [] => if line.isEmpty then [] else [line]
  | line, c :: s => if c = '\n' then stripCr line :: linesFrom [] s else linesFrom (line ++ [c]) s

/-- `str::lines`. -/
def lines (s : Text) : List Text := linesFrom [] s

/-- A number in decimal. -/
def decimal (n : ℕ) : Text := Nat.toDigits 10 n

/-! ### Trimming -/

section Trim

variable {α : Type} {p : α → Bool}

/-- What is dropped at the front is in no run. -/
theorem words_dropWhile (l : List α) : words p (l.dropWhile fun a => !p a) = words p l := by
  induction l with
  | nil => rfl
  | cons a l ih =>
    by_cases ha : p a = true
    · rw [List.dropWhile_cons_of_neg (by rw [ha]; exact Bool.false_ne_true)]
    · have hfalse := eq_false_of_ne_true ha
      rw [List.dropWhile_cons_of_pos (by rw [hfalse]; rfl), ih]
      exact (MaximalRuns.skip hfalse (maximalRuns_words l)).words_eq.symm

/-- An element without `p` at the end is in no run. -/
theorem MaximalRuns.concat {l : List α} {ws : List (List α)} {a : α} (h : MaximalRuns p l ws)
    (ha : p a = false) : MaximalRuns p (l ++ [a]) ws := by
  induction h with
  | nil => exact .skip ha .nil
  | skip hb _ ih => exact .skip hb ih
  | last hne hw => exact .word hne hw ha .nil
  | word hne hw hb _ ih =>
    rw [List.append_assoc, List.cons_append]
    exact .word hne hw hb ih

theorem words_rdropWhile (l : List α) : words p (l.rdropWhile fun a => !p a) = words p l := by
  induction l using List.reverseRecOn with
  | nil => rfl
  | append_singleton l a ih =>
    by_cases ha : p a = true
    · rw [List.rdropWhile_concat_neg _ _ _ (by rw [ha]; exact Bool.false_ne_true)]
    · have hfalse := eq_false_of_ne_true ha
      rw [List.rdropWhile_concat_pos _ _ _ (by rw [hfalse]; rfl), ih]
      exact ((maximalRuns_words l).concat hfalse).words_eq.symm

end Trim

/-- **Trimming does not change the words.** -/
theorem splitWhitespace_trim (s : Text) : splitWhitespace (trim s) = splitWhitespace s := by
  have hnot : (fun c => !!isWhitespace c) = isWhitespace := funext fun c => Bool.not_not _
  have hback := words_rdropWhile (p := fun c => !isWhitespace c) (s.dropWhile isWhitespace)
  have hfront := words_dropWhile (p := fun c => !isWhitespace c) s
  rw [hnot] at hback hfront
  exact hback.trans hfront

end Basis
end CS162

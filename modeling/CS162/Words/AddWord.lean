/-
# Adding words without memory

`hw-intro/words/word_count.c`, lines 66-80 and 82-135: `find_word` and `fprint_words`, and what
`add_word` of `CS162.Words.WordCount` does where requests for memory are not granted.

In a list that has other words, `add_word` does not look at what `strdup` returns.  So it leaves the
list as it was, or counts the word, exactly if this request is granted (`addWord_atomic_iff`); where
it is not, the list has a null word, which a later call dereferences.
-/

import CS162.Basis.Strings
import CS162.Words.WordCount

namespace CS162
namespace Words

open CS162.Basis

/-- The loop of `find_word`, which passes over null words. -/
def findFrom (word : Bytes) : List WordCount → Option WordCount
  | [] => none
  | wc :: next => if wc.word = some word then some wc else findFrom word next

/-- `find_word`. -/
def findWord (wchead : List WordCount) (word : Option Bytes) : Option WordCount :=
  word.bind fun word => findFrom word wchead

/-- `%i`. -/
def decimalInt (x : ℤ) : Text := if x < 0 then '-' :: decimal x.natAbs else decimal x.natAbs

/-- What `fprint_words` prints, unless it dereferences a null word. -/
def fprintWords : List WordCount → Option Bytes
  | [] => some []
  | wc :: next =>
    match wc.word with
    | none => none
    | some word => (fprintWords next).map (utf8 (decimalInt wc.count) ++ 9 :: word ++ 10 :: ·)

/-! ### What is asked of `add_word` -/

/-- The word's count goes up by one, where it is first. -/
def counted (word : Bytes) : List WordCount → List WordCount
  | [] => []
  | wc :: next =>
    if wc.word = some word then { wc with count := wc.count + 1 } :: next
    else wc :: counted word next

/-- The list with the word: its count is one more, or it is at the end with count 1. -/
def added (wclist : List WordCount) (word : Bytes) : List WordCount :=
  if (findFrom word wclist).isSome then counted word wclist else wclist ++ [⟨some word, 1⟩]

/-- No word is null. -/
def NoNull (wclist : List WordCount) : Prop := ∀ wc ∈ wclist, wc.word ≠ none

/-- The word's count can go up by one. -/
def BelowMax (wclist : List WordCount) (word : Bytes) : Prop :=
  ∀ wc, findFrom word wclist = some wc → wc.count < intMax

/-- **Nothing null is dereferenced later**: `find_word` finds the words, `fprint_words` prints them,
and `add_word` returns. -/
structure Safe (wclist : List WordCount) : Prop where
  noNull : NoNull wclist
  print : (fprintWords wclist).isSome
  add : ∀ grant n word, BelowMax wclist word → ((addWord grant wclist word).run n).isSome

/-- **`add_word` is atomic**, as request `n` and the following ones are granted: if one that it makes
is not, it returns 1 and leaves the list; if all are, it returns 0 and has added the word. -/
def Atomic (grant : ℕ → Bool) (n : ℕ) (wclist : List WordCount) (word : Bytes) : Prop :=
  ∃ r wclist' n', (addWord grant wclist word).run n = some ((r, wclist'), n') ∧
    ((∃ i, n ≤ i ∧ i < n' ∧ grant i = false) → r = 1 ∧ wclist' = wclist) ∧
    ((∀ i, n ≤ i → i < n' → grant i = true) → r = 0 ∧ wclist' = added wclist word) ∧
    Safe wclist'

/-- The requests that `add_word` needs and does not look at are granted. -/
def Checked (grant : ℕ → Bool) (n : ℕ) (wclist : List WordCount) (word : Bytes) : Prop :=
  wclist ≠ [] → findFrom word wclist = none → grant n = true → grant (n + 1) = true

/-! ### What `add_word` does -/

section Add

variable {grant : ℕ → Bool} {n : ℕ} {wclist : List WordCount} {word : Bytes}

theorem run_malloc : (malloc grant).run n = some (grant n, n + 1) := rfl

theorem run_strdup :
    (strdup grant word).run n = some (if grant n then some word else none, n + 1) := rfl

/-- What `strdup` gives. -/
def copyOf (grant : ℕ → Bool) (n : ℕ) (word : Bytes) : Option Bytes :=
  if grant n then some word else none

/-- An element in front of the last one is passed over. -/
theorem run_addFrom_cons {current : WordCount} {next : List WordCount} {w : Bytes}
    (hw : current.word = some w) (hne : w ≠ word) (hnext : next ≠ []) :
    (addFrom grant word (current :: next)).run n =
      ((addFrom grant word next).run n).map fun a => ((a.1.1, current :: a.1.2), a.2) := by
  have hempty : next.isEmpty = false := by rw [List.isEmpty_eq_false_iff]; exact hnext
  rw [addFrom, hw]
  dsimp only
  rw [if_neg hne, hempty, if_neg Bool.false_ne_true, StateT.run_bind]
  cases (addFrom grant word next).run n with
  | none => rfl
  | some a => rfl

/-- **The loop finds the word**, by induction on the list. -/
theorem run_addFrom_found (h : NoNull wclist) {wc : WordCount} (hwc : findFrom word wclist = some wc) :
    (addFrom grant word wclist).run n =
      if wc.count < intMax then some ((0, counted word wclist), n) else none := by
  induction wclist with
  | nil => cases hwc
  | cons current next ih =>
    obtain ⟨hcurrent, hnext⟩ := List.forall_mem_cons.1 h
    obtain ⟨w, hw⟩ := Option.ne_none_iff_exists'.1 hcurrent
    rw [findFrom, hw] at hwc
    by_cases heq : w = word
    · rw [if_pos (congrArg some heq)] at hwc
      obtain rfl := Option.some.inj hwc
      rw [addFrom, hw]
      dsimp only
      rw [if_pos heq, counted, hw, if_pos (congrArg some heq), StateT.run_bind, increment]
      split
      · rfl
      · rfl
    · have hne : some w ≠ some word := fun hsome => heq (Option.some.inj hsome)
      rw [if_neg hne] at hwc
      have hnonempty : next ≠ [] := by
        rintro rfl
        cases hwc
      rw [run_addFrom_cons hw heq hnonempty, ih hnext hwc, counted, hw, if_neg hne]
      split
      · rfl
      · rfl

/-- **The loop comes to the end**, by induction on the list. -/
theorem run_addFrom_end (h : NoNull wclist) (hne : wclist ≠ []) (hnone : findFrom word wclist = none) :
    (addFrom grant word wclist).run n =
      if grant n then some ((0, wclist ++ [⟨copyOf grant (n + 1) word, 1⟩]), n + 2)
      else some ((1, wclist), n + 1) := by
  induction wclist with
  | nil => exact absurd rfl hne
  | cons current next ih =>
    obtain ⟨hcurrent, hnext⟩ := List.forall_mem_cons.1 h
    obtain ⟨w, hw⟩ := Option.ne_none_iff_exists'.1 hcurrent
    rw [findFrom, hw] at hnone
    by_cases heq : w = word
    · rw [if_pos (congrArg some heq)] at hnone
      cases hnone
    · rw [if_neg fun hsome => heq (Option.some.inj hsome)] at hnone
      cases next with
      | nil =>
        rw [addFrom, hw]
        dsimp only
        rw [if_neg heq, if_pos (by rfl), StateT.run_bind, run_malloc]
        cases hgrant : grant n with
        | false => rfl
        | true => rfl
      | cons wc next =>
        rw [run_addFrom_cons hw heq (List.cons_ne_nil _ _), ih hnext (List.cons_ne_nil _ _) hnone]
        split
        · rfl
        · rfl

/-- `add_word` on an empty list, which looks at both requests. -/
theorem run_addWord_nil : (addWord grant [] word).run n =
    if grant n then
      if grant (n + 1) then some ((0, [⟨some word, 1⟩]), n + 2) else some ((1, []), n + 2)
    else some ((1, []), n + 1) := by
  unfold addWord
  rw [if_pos (by rfl), StateT.run_bind, run_malloc]
  cases grant n with
  | false => rfl
  | true =>
    dsimp only [Option.bind_eq_bind, Option.bind_some]
    rw [if_pos rfl, if_pos rfl, StateT.run_bind, run_strdup]
    cases grant (n + 1) with
    | false => rfl
    | true => rfl

theorem run_addWord_cons (hne : wclist ≠ []) :
    (addWord grant wclist word).run n = (addFrom grant word wclist).run n := by
  have hempty : wclist.isEmpty = false := by rw [List.isEmpty_eq_false_iff]; exact hne
  unfold addWord
  rw [hempty, if_neg Bool.false_ne_true]

/-! ### The list afterwards -/

theorem noNull_counted (h : NoNull wclist) : NoNull (counted word wclist) := by
  induction wclist with
  | nil => exact h
  | cons wc next ih =>
    obtain ⟨hwc, hnext⟩ := List.forall_mem_cons.1 h
    rw [counted]
    split
    · exact List.forall_mem_cons.2 ⟨hwc, hnext⟩
    · exact List.forall_mem_cons.2 ⟨hwc, ih hnext⟩

theorem noNull_added (h : NoNull wclist) : NoNull (added wclist word) := by
  unfold added
  split
  · exact noNull_counted h
  · exact List.forall_mem_append.2 ⟨h, List.forall_mem_singleton.2 (Option.some_ne_none word)⟩

/-- `fprint_words` dereferences every word. -/
theorem fprintWords_isSome_iff : (fprintWords wclist).isSome ↔ NoNull wclist := by
  induction wclist with
  | nil => exact iff_of_true rfl fun wc hwc => absurd hwc List.not_mem_nil
  | cons wc next ih =>
    rw [fprintWords, NoNull, List.forall_mem_cons]
    cases hw : wc.word with
    | none => exact iff_of_false Bool.false_ne_true fun hall => hall.1 rfl
    | some w =>
      dsimp only
      rw [Option.isSome_map, ih]
      exact (and_iff_right (Option.some_ne_none w)).symm

/-- `add_word` returns on a list without null words. -/
theorem run_addWord_isSome (h : NoNull wclist) (hmax : BelowMax wclist word) :
    ((addWord grant wclist word).run n).isSome := by
  by_cases hne : wclist = []
  · rw [hne, run_addWord_nil]
    split_ifs <;> rfl
  · rw [run_addWord_cons hne]
    cases hfind : findFrom word wclist with
    | none =>
      rw [run_addFrom_end h hne hfind]
      split_ifs <;> rfl
    | some wc =>
      rw [run_addFrom_found h hfind, if_pos (hmax wc hfind)]
      rfl

/-- **A list without null words is safe.** -/
theorem NoNull.safe (h : NoNull wclist) : Safe wclist where
  noNull := h
  print := fprintWords_isSome_iff.2 h
  add _ _ _ hmax := run_addWord_isSome h hmax

/-! ### Atomic or not -/

/-- The word is counted, without a request. -/
theorem atomic_of_found (h : NoNull wclist) {wc : WordCount} (hwc : findFrom word wclist = some wc)
    (hmax : wc.count < intMax) : Atomic grant n wclist word := by
  have hne : wclist ≠ [] := by
    rintro rfl
    cases hwc
  have hadded : added wclist word = counted word wclist := by rw [added, hwc]; rfl
  refine ⟨0, counted word wclist, n, ?_, fun ⟨i, hle, hlt, _⟩ => absurd hle (Nat.not_le_of_lt hlt),
    fun _ => ⟨rfl, hadded.symm⟩, (noNull_counted h).safe⟩
  rw [run_addWord_cons hne, run_addFrom_found h hwc, if_pos hmax]

/-- Without memory for the element the list is left. -/
theorem atomic_of_denied (h : NoNull wclist) (hfind : findFrom word wclist = none)
    (hgrant : grant n = false) : Atomic grant n wclist word := by
  refine ⟨1, wclist, n + 1, ?_, fun _ => ⟨rfl, rfl⟩,
    fun hall => absurd (hall n (Nat.le_refl n) (Nat.lt_succ_self n)) (by simp [hgrant]), h.safe⟩
  by_cases hne : wclist = []
  · rw [hne, run_addWord_nil, hgrant]
    rfl
  · rw [run_addWord_cons hne, run_addFrom_end h hne hfind, hgrant]
    rfl

/-- The word is put at the end. -/
theorem atomic_of_granted (h : NoNull wclist) (hfind : findFrom word wclist = none)
    (hgrant : grant n = true) (hcopy : grant (n + 1) = true) : Atomic grant n wclist word := by
  have hadded : added wclist word = wclist ++ [⟨some word, 1⟩] := by rw [added, hfind]; rfl
  refine ⟨0, added wclist word, n + 2, ?_, ?_, fun _ => ⟨rfl, rfl⟩, (noNull_added h).safe⟩
  · rw [hadded]
    by_cases hne : wclist = []
    · rw [hne, run_addWord_nil, hgrant, hcopy]
      rfl
    · rw [run_addWord_cons hne, run_addFrom_end h hne hfind, hgrant, copyOf, hcopy]
      rfl
  · rintro ⟨i, hle, hlt, hdenied⟩
    obtain rfl | rfl : i = n ∨ i = n + 1 := by omega
    · rw [hgrant] at hdenied
      cases hdenied
    · rw [hcopy] at hdenied
      cases hdenied

/-- Without memory for the word an empty list is left. -/
theorem atomic_nil_of_denied (hgrant : grant n = true) (hcopy : grant (n + 1) = false) :
    Atomic grant n [] word := by
  have hnull : NoNull [] := fun wc hwc => absurd hwc List.not_mem_nil
  refine ⟨1, [], n + 2, ?_, fun _ => ⟨rfl, rfl⟩, fun hall => ?_, hnull.safe⟩
  · rw [run_addWord_nil, hgrant, hcopy]
    rfl
  · have htrue := hall (n + 1) (Nat.le_succ n) (Nat.lt_succ_self _)
    rw [hcopy] at htrue
    cases htrue

/-- **A null word is linked** where `strdup` fails at the end of a list. -/
theorem not_atomic_of_denied (h : NoNull wclist) (hne : wclist ≠ [])
    (hfind : findFrom word wclist = none) (hgrant : grant n = true) (hcopy : grant (n + 1) = false) :
    ¬Atomic grant n wclist word := by
  rintro ⟨r, wclist', n', hrun, -, -, hsafe⟩
  rw [run_addWord_cons hne, run_addFrom_end h hne hfind, hgrant, copyOf, hcopy] at hrun
  obtain ⟨hr, -⟩ := Prod.mk.inj (Option.some.inj hrun)
  obtain ⟨-, rfl⟩ := Prod.mk.inj hr
  exact hsafe.noNull ⟨none, 1⟩ (List.mem_append_right _ (List.mem_singleton_self _)) rfl

/-- **`add_word` is atomic** exactly if the count of the word does not overflow and, where the list
has other words only, there is memory for the copy of the word if there is for the element. -/
theorem addWord_atomic_iff (h : NoNull wclist) :
    Atomic grant n wclist word ↔ BelowMax wclist word ∧ Checked grant n wclist word := by
  constructor
  · intro hatomic
    refine ⟨fun wc hwc => ?_, fun hne hfind hgrant => ?_⟩
    · by_contra hmax
      obtain ⟨r, wclist', n', hrun, -⟩ := hatomic
      have hne : wclist ≠ [] := by
        rintro rfl
        cases hwc
      rw [run_addWord_cons hne, run_addFrom_found h hwc, if_neg hmax] at hrun
      cases hrun
    · cases hcopy : grant (n + 1) with
      | true => rfl
      | false => exact absurd hatomic (not_atomic_of_denied h hne hfind hgrant hcopy)
  · rintro ⟨hmax, hchecked⟩
    cases hfind : findFrom word wclist with
    | some wc => exact atomic_of_found h hfind (hmax wc hfind)
    | none =>
      cases hgrant : grant n with
      | false => exact atomic_of_denied h hfind hgrant
      | true =>
        by_cases hne : wclist = []
        · subst hne
          cases hcopy : grant (n + 1) with
          | true => exact atomic_of_granted h hfind hgrant hcopy
          | false => exact atomic_nil_of_denied hgrant hcopy
        · exact atomic_of_granted h hfind hgrant (hchecked hne hfind hgrant)

end Add

/-- The second request is not granted. -/
def secondDenied (n : ℕ) : Bool := n != 1

theorem noNull_one : NoNull [⟨some [97], 1⟩] := List.forall_mem_singleton.2 (Option.some_ne_none _)

/-- **`b` behind `a`**, without memory for the word. -/
theorem not_addWord_atomic : ¬∀ grant n wclist word, NoNull wclist → Atomic grant n wclist word :=
  fun h => not_atomic_of_denied noNull_one (List.cons_ne_nil _ _) rfl rfl rfl
    (h secondDenied 0 [⟨some [97], 1⟩] [98] noNull_one)

/-- `b` behind `a`, with memory for both requests. -/
theorem addWord_atomic_iff_one : Atomic (fun _ => true) 0 [⟨some [97], 1⟩] [98] ↔
    BelowMax [⟨some [97], 1⟩] [98] ∧ Checked (fun _ => true) 0 [⟨some [97], 1⟩] [98] :=
  addWord_atomic_iff noNull_one

end Words
end CS162

/-
# Ordered insertion and sorting of kernel lists

`projects1-3/src/lib/kernel/list.c`, lines 240-387: `list_insert_ordered` and
`list_sort` with `find_end_of_run` and `inplace_merge`.

A `struct list` is the Lean list of what its elements are embedded in.  `less`
is the comparison a caller passes.  `list_insert_ordered` keeps a list pairwise
in any relation that `less` decides at the place of insertion
(`pairwise_listInsertOrdered`); `list_sort` is a natural merge sort, which
passes over the list until one run is left.  For a strict weak order it ends
within one pass for each element (`listSort_returns`).
-/

import Mathlib.Data.List.Sort
import Mathlib.Tactic.Common

namespace CS162
namespace Lib

variable {α : Type}

/-! ### `list_insert_ordered` -/

/-- `list_insert_ordered`: before the first element that `a` is less than. -/
def listInsertOrdered (less : α → α → Bool) (a : α) (l : List α) : List α :=
  l.orderedInsert (fun a b => less a b = true) a

theorem listInsertOrdered_perm (less : α → α → Bool) (a : α) (l : List α) :
    (listInsertOrdered less a l).Perm (a :: l) :=
  List.perm_orderedInsert _ a l

@[simp] theorem mem_listInsertOrdered {less : α → α → Bool} {a b : α} {l : List α} :
    b ∈ listInsertOrdered less a l ↔ b = a ∨ b ∈ l :=
  List.mem_orderedInsert _

theorem listInsertOrdered_cons (less : α → α → Bool) (a b : α) (l : List α) :
    listInsertOrdered less a (b :: l) =
      if less a b then a :: b :: l else b :: listInsertOrdered less a l := rfl

/-- **Ordered insertion keeps a list ordered**, for any relation `R` that holds
where `less` places the new element. -/
theorem pairwise_listInsertOrdered {less : α → α → Bool} {R : α → α → Prop} {a : α} {l : List α}
    (h : l.Pairwise R) (hbefore : ∀ b ∈ l, less a b = false → R b a)
    (hafter : ∀ b ∈ l, less a b = true → R a b)
    (htrans : ∀ b ∈ l, ∀ c ∈ l, less a b = true → R b c → R a c) :
    (listInsertOrdered less a l).Pairwise R := by
  induction l with
  | nil => exact List.pairwise_singleton R a
  | cons b l ih =>
    obtain ⟨hb, hl⟩ := List.pairwise_cons.1 h
    rw [listInsertOrdered_cons]
    cases hab : less a b with
    | true =>
      rw [if_pos rfl]
      refine List.pairwise_cons.2 ⟨fun c hc => ?_, h⟩
      rcases List.mem_cons.1 hc with rfl | hc
      · exact hafter c List.mem_cons_self hab
      · exact htrans b List.mem_cons_self c (List.mem_cons_of_mem b hc) hab (hb c hc)
    | false =>
      rw [if_neg (by simp)]
      refine List.pairwise_cons.2 ⟨fun c hc => ?_, ?_⟩
      · rcases mem_listInsertOrdered.1 hc with rfl | hc
        · exact hbefore b List.mem_cons_self hab
        · exact hb c hc
      · exact ih hl (fun c hc => hbefore c (List.mem_cons_of_mem b hc))
          (fun c hc => hafter c (List.mem_cons_of_mem b hc))
          fun c hc d hd => htrans c (List.mem_cons_of_mem b hc) d (List.mem_cons_of_mem b hd)

/-! ### `list_sort` -/

/-- The test of `find_end_of_run`: an element `a` goes in front of the run that
starts after it, unless that run's first element is less than `a`. -/
def joinRun (less : α → α → Bool) (a : α) : List (List α) → List (List α)
  | (b :: run) :: rest =>
    if less b a then [a] :: (b :: run) :: rest else (a :: b :: run) :: rest
  | rest => [a] :: rest

/-- The maximal runs of a list in nondecreasing order. -/
def runs (less : α → α → Bool) : List α → List (List α)
  | [] => []
  | a :: l => joinRun less a (runs less l)

/-- `inplace_merge` from an element `a` of the first run on: the elements of the
second run that are less than `a` go before it. -/
def mergeBefore (less : α → α → Bool) (a : α) (rest : List α → List α) : List α → List α
  | [] => a :: rest []
  | b :: l => if less b a then b :: mergeBefore less a rest l else a :: rest (b :: l)

/-- `inplace_merge`. -/
def inplaceMerge (less : α → α → Bool) : List α → List α → List α
  | [], l => l
  | a :: run, l => mergeBefore less a (inplaceMerge less run) l

/-- One pass of `list_sort` over the runs: the number of runs it outputs, and
the list after it. -/
def mergeRuns (less : α → α → Bool) : List (List α) → ℕ × List α
  | [] => (0, [])
  | [run] => (1, run)
  | run :: run' :: rest =>
    let (count, l) := mergeRuns less rest
    (count + 1, inplaceMerge less run run' ++ l)

/-- The loop of `list_sort`, for at most `fuel` passes. -/
def sortPasses (less : α → α → Bool) : ℕ → List α → Option (List α)
  | 0, _ => none
  | fuel + 1, l =>
    let (count, l') := mergeRuns less (runs less l)
    if 1 < count then sortPasses less fuel l' else some l'

/-- `list_sort`; `none` when the passes do not end. -/
def listSort (less : α → α → Bool) (l : List α) : Option (List α) :=
  sortPasses less (l.length + 1) l

/-- The first run of a list starts with its first element. -/
theorem runs_cons (less : α → α → Bool) (a : α) (l : List α) :
    ∃ run rest, runs less (a :: l) = (a :: run) :: rest := by
  rw [runs]
  unfold joinRun
  split
  · split
    · exact ⟨_, _, rfl⟩
    · exact ⟨_, _, rfl⟩
  · exact ⟨_, _, rfl⟩

/-- The first element joins the run of the second, or is a run of its own. -/
theorem runs_cons_cons (less : α → α → Bool) (a b : α) (l : List α) :
    ∃ run rest, runs less (b :: l) = (b :: run) :: rest ∧ runs less (a :: b :: l) =
      if less b a then [a] :: (b :: run) :: rest else (a :: b :: run) :: rest := by
  obtain ⟨run, rest, h⟩ := runs_cons less b l
  refine ⟨run, rest, h, ?_⟩
  rw [runs, h]
  rfl

/-- The runs of a list, one after the other, are the list. -/
theorem flatten_runs (less : α → α → Bool) (l : List α) : (runs less l).flatten = l := by
  induction l with
  | nil => rfl
  | cons a l ih =>
    cases l with
    | nil => rfl
    | cons b l =>
      obtain ⟨run, rest, hb, ha⟩ := runs_cons_cons less a b l
      rw [hb] at ih
      rw [ha]
      split
      · rw [List.flatten_cons, ih]
        rfl
      · rw [List.flatten_cons, List.cons_append, ← List.flatten_cons, ih]

theorem length_runs_cons_cons (less : α → α → Bool) (a b : α) (l : List α) :
    (runs less (a :: b :: l)).length =
      (runs less (b :: l)).length + if less b a then 1 else 0 := by
  obtain ⟨run, rest, hb, ha⟩ := runs_cons_cons less a b l
  rw [ha, hb]
  split <;> simp

theorem length_runs_le (less : α → α → Bool) (l : List α) : (runs less l).length ≤ l.length := by
  induction l with
  | nil => exact le_rfl
  | cons a l ih =>
    cases l with
    | nil => exact le_rfl
    | cons b l =>
      rw [length_runs_cons_cons]
      show _ ≤ (b :: l).length + 1
      split <;> omega

/-- Two lists put together have no more runs than they have apart. -/
theorem length_runs_append (less : α → α → Bool) (l l' : List α) :
    (runs less (l ++ l')).length ≤ (runs less l).length + (runs less l').length := by
  induction l with
  | nil => simp
  | cons a l ih =>
    cases l with
    | nil =>
      cases l' with
      | nil => exact le_rfl
      | cons b l' =>
        have hone : (runs less [a]).length = 1 := rfl
        rw [List.singleton_append, length_runs_cons_cons, hone]
        split <;> omega
    | cons b l =>
      rw [List.cons_append, List.cons_append, length_runs_cons_cons, length_runs_cons_cons,
        ← List.cons_append]
      omega

theorem mergeBefore_eq (less : α → α → Bool) (a : α) (run l : List α)
    (h : ∀ l, inplaceMerge less run l = List.merge run l fun a b => !less b a) :
    mergeBefore less a (inplaceMerge less run) l =
      List.merge (a :: run) l fun a b => !less b a := by
  induction l with
  | nil => rw [mergeBefore, h, List.merge_right, List.merge_right]
  | cons b l ih =>
    rw [mergeBefore, List.merge, ih, h]
    cases less b a <;> rfl

/-- `inplace_merge` merges. -/
theorem inplaceMerge_eq (less : α → α → Bool) (run l : List α) :
    inplaceMerge less run l = List.merge run l fun a b => !less b a := by
  induction run generalizing l with
  | nil => rw [inplaceMerge, List.nil_merge]
  | cons a run ih => rw [inplaceMerge, mergeBefore_eq less a run l ih]

theorem mergeRuns_perm (less : α → α → Bool) :
    ∀ rs : List (List α), (mergeRuns less rs).2.Perm rs.flatten
  | [] => .refl _
  | [run] => by simp [mergeRuns]
  | run :: run' :: rest => by
    rw [mergeRuns, List.flatten_cons, List.flatten_cons, ← List.append_assoc, inplaceMerge_eq]
    exact (List.merge_perm_append _).append (mergeRuns_perm less rest)

theorem sortPasses_perm {less : α → α → Bool} {fuel : ℕ} {l l' : List α}
    (h : sortPasses less fuel l = some l') : l'.Perm l := by
  induction fuel generalizing l with
  | zero => cases h
  | succ fuel ih =>
    have hpass := mergeRuns_perm less (runs less l)
    rw [flatten_runs] at hpass
    rw [sortPasses] at h
    generalize mergeRuns less (runs less l) = pass at h hpass
    dsimp only at h
    split at h
    · exact (ih h).trans hpass
    · exact Option.some.inj h ▸ hpass

/-- `list_sort` reorders its list. -/
theorem listSort_perm {less : α → α → Bool} {l l' : List α} (h : listSort less l = some l') :
    l'.Perm l :=
  sortPasses_perm h

/-- What a comparison has to be for `list_sort`: of any three elements, one that
is less than another is less than a third or the third is less than the other. -/
structure StrictWeak (less : α → α → Bool) : Prop where
  asymm : ∀ a b, less a b = true → less b a = false
  cotrans : ∀ a b c, less a b = false → less b c = false → less a c = false

/-- In nondecreasing order. -/
def Sorted (less : α → α → Bool) (l : List α) : Prop := l.Pairwise fun a b => less b a = false

section Order

variable {less : α → α → Bool} (hless : StrictWeak less)
include hless

theorem inplaceMerge_sorted {run l : List α} (hrun : Sorted less run) (hl : Sorted less l) :
    Sorted less (inplaceMerge less run l) := by
  rw [inplaceMerge_eq]
  have := @List.pairwise_merge _ (fun a b => !less b a)
    (fun a b c hab hbc => by
      simp only [Bool.not_eq_true'] at hab hbc ⊢
      exact hless.cotrans c b a hbc hab)
    (fun a b => by
      cases h : less b a with
      | true => simp [hless.asymm b a h]
      | false => simp)
    run l (hrun.imp fun h => by simp [h]) (hl.imp fun h => by simp [h])
  exact this.imp fun h => by simpa using h

/-- Runs are sorted. -/
theorem sorted_of_mem_runs {l run : List α} (h : run ∈ runs less l) : Sorted less run := by
  induction l generalizing run with
  | nil => cases h
  | cons a l ih =>
    cases l with
    | nil =>
      rw [List.mem_singleton.1 h]
      exact List.pairwise_singleton _ a
    | cons b l =>
      obtain ⟨first, rest, hb, ha⟩ := runs_cons_cons less a b l
      have hfirst : Sorted less (b :: first) := ih (hb ▸ List.mem_cons_self)
      have hrest : ∀ run ∈ rest, Sorted less run := fun run hrun =>
        ih (hb ▸ List.mem_cons_of_mem (b :: first) hrun)
      rw [ha] at h
      cases hba : less b a with
      | true =>
        rw [hba, if_pos rfl] at h
        rcases List.mem_cons.1 h with rfl | h
        · exact List.pairwise_singleton _ a
        · rcases List.mem_cons.1 h with rfl | h
          · exact hfirst
          · exact hrest run h
      | false =>
        rw [hba, if_neg (by simp)] at h
        rcases List.mem_cons.1 h with rfl | h
        · refine List.pairwise_cons.2 ⟨fun c hc => ?_, hfirst⟩
          rcases List.mem_cons.1 hc with rfl | hc
          · exact hba
          · exact hless.cotrans c b a (List.rel_of_pairwise_cons hfirst hc) hba
        · exact hrest run h

omit hless in
/-- A sorted list is one run. -/
theorem length_runs_of_sorted {l : List α} (h : Sorted less l) : (runs less l).length ≤ 1 := by
  induction l with
  | nil => exact Nat.zero_le 1
  | cons a l ih =>
    obtain ⟨ha, hl⟩ := List.pairwise_cons.1 h
    cases l with
    | nil => exact le_rfl
    | cons b l =>
      rw [length_runs_cons_cons, ha b List.mem_cons_self]
      exact ih hl

/-- After a pass there are no more runs than the pass output. -/
theorem length_runs_mergeRuns : ∀ rs : List (List α), (∀ run ∈ rs, Sorted less run) →
    (runs less (mergeRuns less rs).2).length ≤ (mergeRuns less rs).1
  | [], _ => le_rfl
  | [run], h => length_runs_of_sorted (h run List.mem_cons_self)
  | run :: run' :: rest, h => by
    rw [mergeRuns]
    have hmerged := length_runs_of_sorted
      (inplaceMerge_sorted hless (h run List.mem_cons_self)
        (h run' (List.mem_cons_of_mem run List.mem_cons_self)))
    have hrest := length_runs_mergeRuns rest fun r hr =>
      h r (List.mem_cons_of_mem run (List.mem_cons_of_mem run' hr))
    have happend := length_runs_append less (inplaceMerge less run run') (mergeRuns less rest).2
    dsimp only
    omega

omit hless in
/-- A pass outputs half as many runs as it finds. -/
theorem mergeRuns_count (less : α → α → Bool) :
    ∀ rs : List (List α), (mergeRuns less rs).1 = (rs.length + 1) / 2
  | [] => by simp [mergeRuns]
  | [_] => by simp [mergeRuns]
  | run :: run' :: rest => by
    have hrest := mergeRuns_count less rest
    rw [mergeRuns, List.length_cons, List.length_cons]
    dsimp only
    omega

/-- The last pass sorts. -/
theorem mergeRuns_sorted {rs : List (List α)} (h : ∀ run ∈ rs, Sorted less run)
    (hcount : (mergeRuns less rs).1 ≤ 1) : Sorted less (mergeRuns less rs).2 := by
  rw [mergeRuns_count] at hcount
  match rs with
  | [] => exact List.Pairwise.nil
  | [run] => exact h run List.mem_cons_self
  | [run, run'] =>
    rw [mergeRuns, mergeRuns]
    dsimp only
    rw [List.append_nil]
    exact inplaceMerge_sorted hless (h run List.mem_cons_self)
      (h run' (List.mem_cons_of_mem run List.mem_cons_self))
  | run :: run' :: run'' :: rest =>
    simp only [List.length_cons] at hcount
    omega

/-- Each pass but the last leaves fewer runs than it found. -/
theorem sortPasses_returns (fuel : ℕ) :
    ∀ l, (runs less l).length ≤ fuel + 2 →
      ∃ l', sortPasses less (fuel + 1) l = some l' ∧ Sorted less l' := by
  induction fuel with
  | zero =>
    intro l hl
    have hcount := mergeRuns_count less (runs less l)
    refine ⟨(mergeRuns less (runs less l)).2, ?_, ?_⟩
    · rw [sortPasses]
      exact if_neg (by omega)
    · exact mergeRuns_sorted hless (fun run hrun => sorted_of_mem_runs hless hrun) (by omega)
  | succ fuel ih =>
    intro l hl
    have hcount := mergeRuns_count less (runs less l)
    have hruns := length_runs_mergeRuns hless (runs less l) fun run hrun =>
      sorted_of_mem_runs hless hrun
    rcases Nat.lt_or_ge 1 (mergeRuns less (runs less l)).1 with hmore | hdone
    · obtain ⟨l', hl', hsorted⟩ := ih (mergeRuns less (runs less l)).2 (by omega)
      refine ⟨l', ?_, hsorted⟩
      rw [sortPasses]
      exact (if_pos hmore).trans hl'
    · refine ⟨(mergeRuns less (runs less l)).2, ?_, ?_⟩
      · rw [sortPasses]
        exact if_neg (by omega)
      · exact mergeRuns_sorted hless (fun run hrun => sorted_of_mem_runs hless hrun) hdone

/-- **`list_sort` ends, with its list sorted.** -/
theorem listSort_returns (l : List α) :
    ∃ l', listSort less l = some l' ∧ l'.Perm l ∧ Sorted less l' := by
  have hlength := length_runs_le less l
  obtain ⟨l', hl', hsorted⟩ := sortPasses_returns hless l.length l (by omega)
  exact ⟨l', hl', listSort_perm hl', hsorted⟩

end Order

end Lib
end CS162

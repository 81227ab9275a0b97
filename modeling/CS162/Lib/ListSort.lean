/-
# `list_sort` on linked elements

`projects1-3/src/lib/kernel/list.c`, lines 20-32, 66-72, 95-101, 157-175 and 286-370: `list_next`,
`list_prev`, `list_splice`, `is_sorted`, `find_end_of_run`, `inplace_merge` and `list_sort`, with
their assertions.

`less` compares two elements by what they are embedded in, which the list functions do not touch.
A cursor is an element with those behind it, or the tail.  A pass of `list_sort` does on the
elements what `mergeRuns` does on lists, so the loop does what `sortPasses` does
(`sortLoop_returns`), and the list is sorted in place (`listSort_sorts`).
-/

import CS162.Lib.LinkedList
import CS162.Lib.SortStability

namespace CS162
namespace Lib

open CS162.Basis

namespace Linked

/-- `is_head`. -/
def isHead (elem : ℕ) : Prog Memory Bool :=
  if elem = 0 then return false else do
  let prev ← readField elem 0
  let next ← readField elem 4
  return decide (prev = 0) && decide (next ≠ 0)

/-- `list_next`. -/
def listNext (elem : ℕ) : Prog Memory ℕ := do
  let head ← isHead elem
  let interior ← isInterior elem
  if (head || interior) = false then halt else
  readField elem 4

/-- `list_prev`. -/
def listPrev (elem : ℕ) : Prog Memory ℕ := do
  let interior ← isInterior elem
  let tail ← isTail elem
  if (interior || tail) = false then halt else
  readField elem 0

/-- `list_splice`. -/
def listSplice (before first last : ℕ) : Prog Memory Unit := do
  let interior ← isInterior before
  let tail ← isTail before
  if (interior || tail) = false then halt else
  if first = last then return () else do
  let last ← listPrev last
  let interior ← isInterior first
  if interior = false then halt else do
  let interior ← isInterior last
  if interior = false then halt else do
  -- remove `first` to `last` from its list
  let prev ← readField first 0
  let next ← readField last 4
  writeField prev 4 next
  let next ← readField last 4
  let prev ← readField first 0
  writeField next 0 prev
  -- splice it into the new list
  let prev ← readField before 0
  writeField first 0 prev
  writeField last 4 before
  let prev ← readField before 0
  writeField prev 4 first
  writeField before 0 last

section Sorting

variable (less : ℕ → ℕ → Bool)

/-- The loop of `is_sorted`. -/
def isSortedLoop (b : ℕ) : ℕ → ℕ → Prog Memory Bool
  | 0, _ => halt
  | fuel + 1, a => do
    let a ← listNext a
    if a = b then return true else do
    let prev ← listPrev a
    if less a prev = true then return false else
    isSortedLoop b fuel a

/-- `is_sorted`. -/
def isSorted (fuel a b : ℕ) : Prog Memory Bool :=
  if a = b then return true else isSortedLoop less b fuel a

/-- The loop of `find_end_of_run`. -/
def findEndLoop (b : ℕ) : ℕ → ℕ → Prog Memory ℕ
  | 0, _ => halt
  | fuel + 1, a => do
    let a ← listNext a
    if a = b then return a else do
    let prev ← listPrev a
    if less a prev = true then return a else
    findEndLoop b fuel a

/-- `find_end_of_run`. -/
def findEndOfRun (fuel a b : ℕ) : Prog Memory ℕ :=
  if a = 0 ∨ b = 0 ∨ a = b then halt else findEndLoop less b fuel a

/-- The loop of `inplace_merge`. -/
def mergeLoop (b1 : ℕ) : ℕ → ℕ → ℕ → Prog Memory Unit
  | 0, _, _ => halt
  | fuel + 1, a0, a1b0 =>
    if a0 = a1b0 ∨ a1b0 = b1 then return () else
    if less a1b0 a0 = false then do
      let a0 ← listNext a0
      mergeLoop b1 fuel a0 a1b0
    else do
      let a1b0 ← listNext a1b0
      let moved ← listPrev a1b0
      listSplice a0 moved a1b0
      mergeLoop b1 fuel a0 a1b0

/-- `inplace_merge`. -/
def inplaceMerge (fuel a0 a1b0 b1 : ℕ) : Prog Memory Unit :=
  if a0 = 0 ∨ a1b0 = 0 ∨ b1 = 0 then halt else do
  let sorted ← isSorted less fuel a0 a1b0
  if sorted = false then halt else do
  let sorted ← isSorted less fuel a1b0 b1
  if sorted = false then halt else
  mergeLoop less b1 fuel a0 a1b0

/-- A pass of `list_sort` from the element `a0` on: the runs it has output. -/
def sortPass (fuel list : ℕ) : ℕ → ℕ → ℕ → Prog Memory ℕ
  | 0, _, _ => halt
  | turns + 1, a0, count => do
    let stop ← listEnd list
    if a0 = stop then return count else do
    let a1b0 ← findEndOfRun less fuel a0 stop
    if a1b0 = stop then return count + 1 else do
    let b1 ← findEndOfRun less fuel a1b0 stop
    inplaceMerge less fuel a0 a1b0 b1
    sortPass fuel list turns b1 (count + 1)

/-- The passes of `list_sort`. -/
def sortLoop (fuel list : ℕ) : ℕ → Prog Memory Unit
  | 0 => halt
  | passes + 1 => do
    let first ← listBegin list
    let count ← sortPass less fuel list fuel first 0
    if 1 < count then sortLoop fuel list passes else return ()

/-- `list_sort`, each loop of it for less than `fuel` turns. -/
def listSort (fuel list : ℕ) : Prog Memory Unit :=
  if list = 0 then halt else do
  sortLoop less fuel list fuel
  let first ← listBegin list
  let stop ← listEnd list
  let sorted ← isSorted less fuel first stop
  if sorted = false then halt else return ()

end Sorting

/-! ### Cursors -/

/-- The first of the elements that are left, or the tail. -/
def cursor (list : ℕ) : List ℕ → ℕ
  | [] => listTail list
  | x :: _ => x

variable {m : Memory} {list x y e fuel : ℕ} {l xs ys zs rest : List ℕ}

theorem exists_cursor (list : ℕ) (ys : List ℕ) :
    ∃ post, ys ++ [listTail list] = cursor list ys :: post := by
  cases ys with
  | nil => exact ⟨[], rfl⟩
  | cons y ys => exact ⟨ys ++ [listTail list], rfl⟩

theorem cursor_mem (list : ℕ) (ys zs : List ℕ) :
    cursor list zs ∈ ys ++ zs ++ [listTail list] := by
  cases zs with
  | nil => simp [cursor]
  | cons z zs => simp [cursor]

theorem cursor_mem_cells (list : ℕ) (xs ys : List ℕ) : cursor list ys ∈ cells list (xs ++ ys) :=
  List.mem_cons_of_mem _ (cursor_mem list xs ys)

theorem cursor_ne_zero (h : IsList m list (xs ++ ys)) : cursor list ys ≠ 0 :=
  h.ne_zero (cursor_mem_cells list xs ys)

/-- The cursors of a list with more elements and with fewer are different. -/
theorem ne_cursor (h : IsList m list (xs ++ x :: ys ++ zs)) : x ≠ cursor list zs := by
  have hpairs := (List.pairwise_cons.1 h.apart).2
  rw [List.append_assoc, List.append_assoc] at hpairs
  have hmem := cursor_mem list ys zs
  rw [List.append_assoc] at hmem
  exact ((List.pairwise_cons.1 (List.pairwise_append.1 hpairs).2.1).1 _ hmem).ne

theorem cursor_ne_end (h : IsList m list (xs ++ ys)) (hys : ys ≠ []) :
    cursor list ys ≠ cursor list [] := by
  obtain ⟨y, ys, rfl⟩ := List.exists_cons_of_ne_nil hys
  have htail : IsList m list (xs ++ y :: ys ++ []) := by rwa [List.append_nil]
  exact ne_cursor htail

/-- An element and the cursor behind it are linked. -/
theorem links_cursor (h : IsList m list (xs ++ x :: ys)) :
    nextAt m x = cursor list ys ∧ prevAt m (cursor list ys) = x := by
  obtain ⟨post, hpost⟩ := exists_cursor list ys
  have hcells : cells list (xs ++ x :: ys) = (listHead list :: xs) ++ x :: cursor list ys :: post := by
    rw [← hpost]
    simp [cells]
  have hbetween : Between m list (xs ++ x :: ys) (listHead list :: xs) x (cursor list ys) post :=
    ⟨h, hcells⟩
  exact hbetween.links

theorem prev_ne_zero (h : IsList m list (xs ++ x :: ys)) : prevAt m x ≠ 0 := by
  obtain ⟨pre, a, b, post, haround⟩ := h.around
  rw [haround.left.links.2]
  exact h.ne_zero haround.left.left_mem

/-- An element is interior. -/
theorem isInterior_returns (h : IsList m list (xs ++ x :: ys)) :
    Returns (isInterior x) m fun interior m' => interior = true ∧ m' = m := by
  have hx : x ≠ 0 := h.ne_zero (mem_cells.2 (.inr (.inl (by simp))))
  have hprev : fieldAt m x 0 ≠ 0 := prev_ne_zero h
  have hnext : fieldAt m x 4 ≠ 0 := by
    have hlast : IsList m list ((xs ++ [x]) ++ ys) := by simpa using h
    rw [show fieldAt m x 4 = _ from (links_cursor h).1]
    exact cursor_ne_zero hlast
  unfold isInterior
  rw [if_neg hx, returns_readField hx, returns_readField hx, returns_pure]
  exact ⟨by rw [decide_eq_true hprev, decide_eq_true hnext]; rfl, rfl⟩

/-- **`list_next`** goes to the cursor behind. -/
theorem listNext_returns (h : IsList m list (xs ++ x :: ys)) :
    Returns (listNext x) m fun next m' => next = cursor list ys ∧ m' = m := by
  have hx : x ≠ 0 := h.ne_zero (mem_cells.2 (.inr (.inl (by simp))))
  have hhead : Returns (isHead x) m fun _ m' => m' = m := by
    unfold isHead
    rw [if_neg hx, returns_readField hx, returns_readField hx, returns_pure]
  unfold listNext
  refine hhead.seq ?_
  rintro head m' rfl
  refine (isInterior_returns h).seq ?_
  rintro interior m' ⟨rfl, rfl⟩
  rw [if_neg (by simp), returns_readField_last hx]
  exact ⟨(links_cursor h).1, rfl⟩

/-- **`list_prev`** goes back from the cursor behind. -/
theorem listPrev_returns (h : IsList m list (xs ++ x :: ys)) :
    Returns (listPrev (cursor list ys)) m fun prev m' => prev = x ∧ m' = m := by
  have hx : x ≠ 0 := h.ne_zero (mem_cells.2 (.inr (.inl (by simp))))
  have hlast : IsList m list ((xs ++ [x]) ++ ys) := by simpa using h
  have hcursor := cursor_ne_zero hlast
  have hprev := (links_cursor h).2
  unfold listPrev
  refine returns_isInterior_or_isTail hcursor (by rwa [hprev]) fun i t hit => ?_
  rw [if_neg (by simp [hit]), returns_readField_last hcursor]
  exact ⟨hprev, rfl⟩

/-- The first cursor. -/
theorem listBegin_returns (h : IsList m list l) :
    Returns (listBegin list) m fun first m' => first = cursor list l ∧ m' = m := by
  obtain ⟨b, post, hb, hbetween⟩ := h.between_front
  obtain ⟨post', hpost⟩ := exists_cursor list l
  obtain ⟨rfl, -⟩ := List.cons.inj (hb.symm.trans hpost)
  unfold listBegin
  rw [returns_readField_last (h.ne_zero hbetween.left_mem)]
  exact ⟨hbetween.links.1, rfl⟩

theorem listEnd_returns (h : IsList m list l) :
    Returns (listEnd list) m fun stop m' => stop = cursor list [] ∧ m' = m := by
  have hlist : list ≠ 0 := h.ne_zero (mem_cells.2 (.inl rfl))
  unfold listEnd
  rw [if_neg hlist, returns_pure]
  exact ⟨rfl, rfl⟩

/-! ### Moving one element -/

/-- **`list_splice`** of one element moves it in front of another. -/
theorem listSplice_returns {moved : ℕ}
    (h : IsList m list (xs ++ x :: ys ++ moved :: zs)) :
    Returns (listSplice x moved (cursor list zs)) m fun _ m' =>
      IsList m' list (xs ++ moved :: x :: ys ++ zs) ∧
        SameOff (cells list (xs ++ x :: ys ++ moved :: zs)) m m' := by
  obtain ⟨pre, p, b, post, haround⟩ := h.around
  obtain ⟨hremoved, hsame⟩ := isList_removed haround
  obtain ⟨pre', a, ha⟩ := exists_concat (listHead list) xs
  have hsplit : xs ++ x :: ys ++ zs = xs ++ (x :: ys ++ zs) := List.append_assoc ..
  rw [hsplit] at hremoved
  have hcells : cells list (xs ++ (x :: ys ++ zs)) = pre' ++ a :: x :: (ys ++ zs ++ [listTail list]) := by
    unfold cells
    rw [List.append_assoc, ← List.cons_append, ha]
    simp
  have hbetween : Between (removed m p b) list (xs ++ (x :: ys ++ zs)) pre' a x
      (ys ++ zs ++ [listTail list]) := ⟨hremoved, hcells⟩
  have hmoved : moved ∈ cells list (xs ++ x :: ys ++ moved :: zs) := mem_cells.2 (.inr (.inl (by simp)))
  have hapart : ∀ c ∈ cells list (xs ++ (x :: ys ++ zs)), Apart c moved := fun c hc => by
    have hpairs := ((cells_perm moved (xs ++ x :: ys) zs).pairwise_iff Apart.symm).1 h.apart
    rw [hsplit] at hpairs
    exact ((List.pairwise_cons.1 hpairs).1 c hc).symm
  have hnew : cells list (xs ++ moved :: (x :: ys ++ zs)) =
      pre' ++ a :: moved :: x :: (ys ++ zs ++ [listTail list]) := by
    unfold cells
    rw [List.append_assoc, ← List.cons_append, ha]
    simp
  obtain ⟨hinserted, hsame'⟩ := isList_inserted hbetween hnew (h.inside moved hmoved) hapart
  have hrun : Returns (listSplice x moved (cursor list zs)) m fun _ m' =>
      m' = inserted (removed m p b) a moved x := by
    have hx : IsList m list (xs ++ x :: (ys ++ moved :: zs)) := by simpa using h
    have hx0 : x ≠ 0 := h.ne_zero (mem_cells.2 (.inr (.inl (by simp))))
    have hmoved0 := h.ne_zero hmoved
    have hp0 := h.ne_zero haround.left.left_mem
    have hb0 := h.ne_zero haround.right.right_mem
    have ha0 := hremoved.ne_zero hbetween.left_mem
    have hxmoved := hapart x hbetween.right_mem
    have hmovedp := (haround.left.apart_left (x := moved) (by simp)).2
    have hprev : fieldAt m moved 0 = p := haround.left.links.2
    have hnext : fieldAt m moved 4 = b := haround.right.links.1
    have hprev₁ : fieldAt (setFieldAt m p 4 b) moved 0 = p :=
      (prevAt_set_next (.inr hmovedp)).trans hprev
    have hnext₁ : fieldAt (setFieldAt m p 4 b) moved 4 = b :=
      (nextAt_set_next_of_apart hmovedp).trans hnext
    have hbefore : fieldAt (setFieldAt (setFieldAt m p 4 b) b 0 p) x 0 = a := hbetween.links.2
    have hbefore₁ : fieldAt (setFieldAt (setFieldAt (setFieldAt (setFieldAt m p 4 b) b 0 p)
        moved 0 a) moved 4 x) x 0 = a :=
      ((prevAt_set_next (.inr hxmoved)).trans (prevAt_set_prev_of_apart hxmoved)).trans hbefore
    have hlast : IsList m list (xs ++ x :: ys ++ [moved] ++ zs) := by simpa using h
    have hne : moved ≠ cursor list zs := ne_cursor hlast
    unfold listSplice
    refine returns_isInterior_or_isTail hx0 (prev_ne_zero hx) fun i t hit => ?_
    rw [if_neg (by simp [hit]), if_neg hne]
    refine (listPrev_returns h).seq ?_
    rintro last m' ⟨rfl, rfl⟩
    refine (isInterior_returns h).seq ?_
    rintro interior m' ⟨rfl, rfl⟩
    rw [if_neg nofun]
    refine (isInterior_returns h).seq ?_
    rintro interior m' ⟨rfl, rfl⟩
    rw [if_neg nofun, returns_readField hmoved0, returns_readField hmoved0, hprev, hnext,
      returns_writeField hp0, returns_readField hmoved0, returns_readField hmoved0, hprev₁, hnext₁,
      returns_writeField hb0, returns_readField hx0, hbefore, returns_writeField hmoved0,
      returns_writeField hmoved0, returns_readField hx0, hbefore₁, returns_writeField ha0,
      returns_writeField_last hx0]
    rfl
  refine hrun.mono fun _ m' hm' => ?_
  rw [hm']
  refine ⟨by simpa using hinserted, hsame.trans (hsame'.mono fun c hc => ?_)⟩
  rw [← hsplit] at hc
  exact (cells_perm moved (xs ++ x :: ys) zs).mem_iff.2 hc

/-! ### The loops -/

section Loops

variable {less : ℕ → ℕ → Bool}

/-- **`is_sorted`** holds of a sorted run. -/
theorem isSortedLoop_returns {run : List ℕ} (h : IsList m list (xs ++ x :: run ++ rest))
    (hsorted : Sorted less (x :: run)) (hfuel : run.length < fuel) :
    Returns (isSortedLoop less (cursor list rest) fuel x) m fun sorted m' =>
      sorted = true ∧ m' = m := by
  induction fuel generalizing xs x run with
  | zero => exact absurd hfuel (Nat.not_lt_zero _)
  | succ fuel ih =>
    have hx : IsList m list (xs ++ x :: (run ++ rest)) := by simpa using h
    rw [isSortedLoop]
    refine (listNext_returns hx).seq ?_
    rintro next m' ⟨rfl, rfl⟩
    cases run with
    | nil =>
      rw [List.nil_append, if_pos rfl]
      exact returns_pure.2 ⟨rfl, rfl⟩
    | cons y run =>
      have hy : IsList m' list (xs ++ [x] ++ y :: run ++ rest) := by simpa using h
      have hxy : less y x = false := List.rel_of_pairwise_cons hsorted List.mem_cons_self
      have hcursor : cursor list (y :: run ++ rest) = y := rfl
      have hprev := listPrev_returns hx
      rw [hcursor] at hprev ⊢
      rw [if_neg (ne_cursor hy)]
      refine hprev.seq ?_
      rintro prev m'' ⟨rfl, rfl⟩
      rw [hxy, if_neg nofun]
      exact ih hy (List.pairwise_cons.1 hsorted).2 (Nat.lt_of_succ_lt_succ hfuel)

theorem isSorted_returns {run : List ℕ} (h : IsList m list (xs ++ run ++ rest))
    (hsorted : Sorted less run) (hfuel : run.length < fuel) :
    Returns (isSorted less fuel (cursor list (run ++ rest)) (cursor list rest)) m fun sorted m' =>
      sorted = true ∧ m' = m := by
  unfold isSorted
  cases run with
  | nil =>
    rw [List.nil_append, if_pos rfl]
    exact returns_pure.2 ⟨rfl, rfl⟩
  | cons x run =>
    have hx : cursor list (x :: run ++ rest) = x := rfl
    rw [hx, if_neg (ne_cursor h)]
    exact isSortedLoop_returns h hsorted (Nat.lt_of_succ_lt hfuel)

/-- **`find_end_of_run`** ends at the second of the runs. -/
theorem findEndLoop_returns {run : List ℕ} {rs : List (List ℕ)}
    (h : IsList m list (xs ++ x :: l)) (hruns : runs less (x :: l) = run :: rs)
    (hfuel : l.length < fuel) :
    Returns (findEndLoop less (cursor list []) fuel x) m fun stop m' =>
      stop = cursor list rs.flatten ∧ m' = m := by
  induction fuel generalizing xs x l run rs with
  | zero => exact absurd hfuel (Nat.not_lt_zero _)
  | succ fuel ih =>
    rw [findEndLoop]
    refine (listNext_returns h).seq ?_
    rintro next m' ⟨rfl, rfl⟩
    cases l with
    | nil =>
      obtain ⟨-, rfl⟩ := List.cons.inj hruns
      rw [if_pos rfl]
      exact returns_pure.2 ⟨rfl, rfl⟩
    | cons y l =>
      have hy : IsList m' list (xs ++ [x] ++ y :: l ++ []) := by simpa using h
      have hcursor : cursor list (y :: l) = y := rfl
      have hprev := listPrev_returns h
      rw [hcursor] at hprev ⊢
      rw [if_neg (ne_cursor hy)]
      refine hprev.seq ?_
      rintro prev m'' ⟨rfl, rfl⟩
      obtain ⟨first, later, hrest, heq⟩ := runs_cons_cons less prev y l
      rw [heq] at hruns
      by_cases hless : less y prev = true
      · -- the run ends before `y`
        rw [if_pos hless] at hruns ⊢
        obtain ⟨-, rfl⟩ := List.cons.inj hruns
        rw [← hrest, flatten_runs]
        exact returns_pure.2 ⟨rfl, rfl⟩
      · rw [if_neg hless] at hruns ⊢
        obtain ⟨-, rfl⟩ := List.cons.inj hruns
        rw [List.append_nil] at hy
        exact ih hy hrest (Nat.lt_of_succ_lt_succ hfuel)

theorem findEndOfRun_returns {run : List ℕ} {rs : List (List ℕ)}
    (h : IsList m list (xs ++ l)) (hruns : runs less l = run :: rs) (hfuel : l.length ≤ fuel) :
    Returns (findEndOfRun less fuel (cursor list l) (cursor list [])) m fun stop m' =>
      stop = cursor list rs.flatten ∧ m' = m := by
  cases l with
  | nil => cases hruns
  | cons x l =>
    have hx0 : x ≠ 0 := cursor_ne_zero h
    have htail : IsList m list (xs ++ x :: l ++ []) := by rwa [List.append_nil]
    have hne : x ≠ cursor list [] := cursor_ne_end h (List.cons_ne_nil x l)
    have hstop0 : cursor list [] ≠ 0 := cursor_ne_zero htail
    have hx : cursor list (x :: l) = x := rfl
    unfold findEndOfRun
    rw [hx, if_neg (by simp [hx0, hstop0, hne])]
    exact findEndLoop_returns h hruns hfuel

/-- **The loop of `inplace_merge`** merges. -/
theorem mergeLoop_returns {run run' : List ℕ} (h : IsList m list (xs ++ run ++ run' ++ rest))
    (hfuel : run.length + run'.length < fuel) :
    Returns (mergeLoop less (cursor list rest) fuel (cursor list (run ++ run' ++ rest))
      (cursor list (run' ++ rest))) m fun _ m' =>
        IsList m' list (xs ++ Lib.inplaceMerge less run run' ++ rest) ∧
          SameOff (cells list (xs ++ run ++ run' ++ rest)) m m' := by
  induction fuel generalizing xs run run' m with
  | zero => exact absurd hfuel (Nat.not_lt_zero _)
  | succ fuel ih =>
    rw [mergeLoop]
    cases run with
    | nil =>
      rw [List.nil_append, if_pos (.inl rfl), Lib.inplaceMerge]
      exact returns_pure.2 ⟨by simpa using h, .refl⟩
    | cons a run =>
      have ha : cursor list (a :: run ++ run' ++ rest) = a := rfl
      rw [ha, Lib.inplaceMerge]
      cases run' with
      | nil =>
        rw [List.nil_append, if_pos (.inr rfl), mergeBefore, inplaceMerge_eq, List.merge_right]
        exact returns_pure.2 ⟨by simpa using h, .refl⟩
      | cons b run' =>
        have hb : cursor list (b :: run' ++ rest) = b := rfl
        have ha' : IsList m list (xs ++ a :: run ++ (b :: run' ++ rest)) := by simpa using h
        have hab : a ≠ b := ne_cursor ha'
        have hbrest : b ≠ cursor list rest := ne_cursor h
        rw [hb, if_neg (by simp [hab, hbrest]), mergeBefore]
        by_cases hless : less b a = true
        · -- `b` goes before `a`
          rw [if_pos hless, if_neg (by simp [hless])]
          have hmoved : IsList m list (xs ++ a :: run ++ b :: (run' ++ rest)) := by simpa using h
          refine (listNext_returns hmoved).seq ?_
          rintro next m' ⟨rfl, rfl⟩
          refine (listPrev_returns hmoved).seq ?_
          rintro moved m' ⟨rfl, rfl⟩
          refine (listSplice_returns hmoved).seq fun _ m'' hsplice => ?_
          have hnext : IsList m'' list (xs ++ [moved] ++ (a :: run) ++ run' ++ rest) := by
            simpa using hsplice.1
          refine (ih hnext (by simp at hfuel ⊢; omega)).mono fun _ m₃ hmerged => ?_
          have hmerge := hmerged.1
          rw [Lib.inplaceMerge] at hmerge
          refine ⟨by simpa using hmerge, ?_⟩
          have hsame := hsplice.2.trans (hmerged.2.mono fun c hc => ?_)
          · simpa using hsame
          · simp only [mem_cells, List.mem_append, List.mem_cons] at hc ⊢
            simp only [List.not_mem_nil, or_false] at hc
            tauto
        · rw [if_neg hless, if_pos (by simpa using hless)]
          have hpassed : IsList m list (xs ++ a :: (run ++ (b :: run') ++ rest)) := by simpa using h
          refine (listNext_returns hpassed).seq ?_
          rintro next m' ⟨rfl, rfl⟩
          have hnext : IsList m' list (xs ++ [a] ++ run ++ (b :: run') ++ rest) := by simpa using h
          refine (ih hnext (by simp at hfuel ⊢; omega)).mono fun _ m₃ hmerged => ?_
          exact ⟨by simpa using hmerged.1, by simpa using hmerged.2⟩

/-- **`inplace_merge`** of two sorted runs. -/
theorem inplaceMerge_returns {run run' : List ℕ} (h : IsList m list (xs ++ run ++ run' ++ rest))
    (hrun : Sorted less run) (hrun' : Sorted less run')
    (hfuel : run.length + run'.length < fuel) :
    Returns (inplaceMerge less fuel (cursor list (run ++ run' ++ rest)) (cursor list (run' ++ rest))
      (cursor list rest)) m fun _ m' =>
        IsList m' list (xs ++ Lib.inplaceMerge less run run' ++ rest) ∧
          SameOff (cells list (xs ++ run ++ run' ++ rest)) m m' := by
  have h₁ : IsList m list (xs ++ run ++ (run' ++ rest)) := by simpa using h
  have h₀ : IsList m list (xs ++ (run ++ run' ++ rest)) := by simpa using h
  have hsorted : Returns (isSorted less fuel (cursor list (run ++ (run' ++ rest)))
      (cursor list (run' ++ rest))) m fun sorted m' => sorted = true ∧ m' = m :=
    isSorted_returns h₁ hrun (by omega)
  rw [← List.append_assoc] at hsorted
  have hne : ¬(cursor list (run ++ run' ++ rest) = 0 ∨ cursor list (run' ++ rest) = 0 ∨
      cursor list rest = 0) := by
    rintro (hzero | hzero | hzero)
    · exact cursor_ne_zero h₀ hzero
    · exact cursor_ne_zero h₁ hzero
    · exact cursor_ne_zero h hzero
  unfold inplaceMerge
  rw [if_neg hne]
  refine hsorted.seq ?_
  rintro sorted m' ⟨rfl, rfl⟩
  rw [if_neg nofun]
  refine (isSorted_returns h hrun' (by omega)).seq ?_
  rintro sorted m' ⟨rfl, rfl⟩
  rw [if_neg nofun]
  exact mergeLoop_returns h hfuel

/-- Behind the first run the runs are the others. -/
theorem runs_tail {run : List ℕ} {rs : List (List ℕ)} (h : runs less l = run :: rs) :
    l = run ++ rs.flatten ∧ runs less rs.flatten = rs := by
  have hflatten := flatten_runs less l
  rw [h, List.flatten_cons] at hflatten
  refine ⟨hflatten.symm, ?_⟩
  clear hflatten
  induction l generalizing run with
  | nil => cases h
  | cons x l ih =>
    cases l with
    | nil =>
      obtain ⟨-, rfl⟩ := List.cons.inj h
      rfl
    | cons y l =>
      obtain ⟨first, later, hrest, heq⟩ := runs_cons_cons less x y l
      rw [heq] at h
      split at h
      · obtain ⟨-, rfl⟩ := List.cons.inj h
        rw [← hrest, flatten_runs]
      · obtain ⟨-, rfl⟩ := List.cons.inj h
        exact ih hrest

theorem ne_nil_of_runs {run : List ℕ} {rs : List (List ℕ)} (h : runs less l = run :: rs) :
    l ≠ [] ∧ run ≠ [] := by
  cases l with
  | nil => cases h
  | cons x l =>
    obtain ⟨first, later, hfirst⟩ := runs_cons less x l
    obtain ⟨rfl, -⟩ := List.cons.inj (h.symm.trans hfirst)
    exact ⟨List.cons_ne_nil x l, List.cons_ne_nil x first⟩

/-- **A pass** merges the runs two by two. -/
theorem sortPass_returns (hless : StrictWeak less) {turns count : ℕ} (h : IsList m list (xs ++ l))
    (hturns : l.length < turns) (hfuel : l.length < fuel) :
    Returns (sortPass less fuel list turns (cursor list l) count) m fun count' m' =>
      count' = count + (mergeRuns less (runs less l)).1 ∧
        IsList m' list (xs ++ (mergeRuns less (runs less l)).2) ∧
          SameOff (cells list (xs ++ l)) m m' := by
  induction turns generalizing xs l m count with
  | zero => exact absurd hturns (Nat.not_lt_zero _)
  | succ turns ih =>
    rw [sortPass]
    refine (listEnd_returns h).seq ?_
    rintro stop m' ⟨rfl, rfl⟩
    cases hruns : runs less l with
    | nil =>
      have hnil : l = [] := by
        rw [← flatten_runs less l, hruns]
        rfl
      subst hnil
      rw [if_pos rfl]
      exact returns_pure.2 ⟨rfl, h, .refl⟩
    | cons run rs =>
      obtain ⟨hl, hrs⟩ := runs_tail hruns
      rw [if_neg (cursor_ne_end h (ne_nil_of_runs hruns).1)]
      refine (findEndOfRun_returns h hruns hfuel.le).seq ?_
      rintro a1b0 m' ⟨rfl, rfl⟩
      cases rs with
      | nil =>
        rw [List.flatten_nil, List.append_nil] at hl
        rw [List.flatten_nil, if_pos rfl, mergeRuns, ← hl]
        exact returns_pure.2 ⟨rfl, h, .refl⟩
      | cons run' rs =>
        obtain ⟨hl', hrs'⟩ := runs_tail hrs
        have hlist : IsList m' list (xs ++ run ++ (run' :: rs).flatten) := by
          rwa [List.append_assoc, ← hl]
        have hsorted := sorted_of_mem_runs hless (hruns ▸ List.mem_cons_self)
        have hsorted' := sorted_of_mem_runs hless (hrs ▸ List.mem_cons_self)
        have hpos := List.length_pos_iff.2 (ne_nil_of_runs hrs).2
        have hlength : l.length = run.length + (run'.length + rs.flatten.length) := by
          rw [hl, List.length_append, List.flatten_cons, List.length_append]
        rw [if_neg (cursor_ne_end hlist (ne_nil_of_runs hrs).1)]
        have hfuel' : (run' :: rs).flatten.length ≤ fuel := by
          rw [List.flatten_cons, List.length_append]
          omega
        refine (findEndOfRun_returns hlist hrs hfuel').seq ?_
        rintro b1 m' ⟨rfl, rfl⟩
        have hmerge : IsList m' list (xs ++ run ++ run' ++ rs.flatten) := by
          rwa [List.append_assoc _ run', ← List.flatten_cons]
        have hroom : run.length + run'.length < fuel := by omega
        have hmerged := inplaceMerge_returns hmerge hsorted hsorted' hroom
        have ha0 : run ++ run' ++ rs.flatten = l := by
          rw [List.append_assoc, ← List.flatten_cons, ← hl]
        rw [ha0, ← List.flatten_cons] at hmerged
        refine hmerged.seq fun _ m₁ hm₁ => ?_
        refine (ih hm₁.1 (by omega) (by omega)).mono fun count' m₂ hm₂ => ?_
        obtain ⟨hcount, hlist₂, hsame⟩ := hm₂
        rw [hrs'] at hcount hlist₂
        rw [mergeRuns]
        refine ⟨?_, by rwa [List.append_assoc] at hlist₂, ?_⟩
        · show count' = count + ((mergeRuns less rs).1 + 1)
          omega
        · have hperm : (Lib.inplaceMerge less run run').Perm (run ++ run') := by
            rw [inplaceMerge_eq]
            exact List.merge_perm_append _
          have hcells : cells list (xs ++ run ++ run' ++ rs.flatten) = cells list (xs ++ l) := by
            rw [← ha0]
            simp
          rw [hcells] at hm₁
          refine hm₁.2.trans (hsame.mono fun c hc => ?_)
          rw [mem_cells] at hc ⊢
          rw [← ha0]
          simp only [List.mem_append, hperm.mem_iff] at hc ⊢
          tauto

/-- **The loop of `list_sort`** does what the passes over the elements do. -/
theorem sortLoop_returns (hless : StrictWeak less) {passes : ℕ} {l' : List ℕ}
    (h : IsList m list l) (hpasses : sortPasses less passes l = some l') (hfuel : l.length < fuel) :
    Returns (sortLoop less fuel list passes) m fun _ m' =>
      IsList m' list l' ∧ SameOff (cells list l) m m' := by
  induction passes generalizing l m with
  | zero => cases hpasses
  | succ passes ih =>
    rw [sortLoop]
    refine (listBegin_returns h).seq ?_
    rintro first m' ⟨rfl, rfl⟩
    have hlist : IsList m' list ([] ++ l) := h
    refine (sortPass_returns hless hlist hfuel hfuel).seq ?_
    rintro count m'' ⟨hcount, hlist', hsame⟩
    rw [List.nil_append] at hlist' hsame
    have hperm := mergeRuns_perm less (runs less l)
    rw [flatten_runs] at hperm
    rw [sortPasses] at hpasses
    rw [hcount, Nat.zero_add]
    generalize mergeRuns less (runs less l) = pass at hpasses hlist' hperm
    dsimp only at hpasses hlist'
    split at hpasses
    · rename_i hmore
      rw [if_pos hmore]
      refine (ih hlist' hpasses (hperm.length_eq ▸ hfuel)).mono fun _ m₂ hm₂ => ?_
      refine ⟨hm₂.1, hsame.trans (hm₂.2.mono fun c hc => ?_)⟩
      rw [mem_cells] at hc ⊢
      rwa [hperm.mem_iff] at hc
    · rename_i hdone
      rw [if_neg hdone]
      exact returns_pure.2 ⟨Option.some.inj hpasses ▸ hlist', hsame⟩

end Loops

/-- **`list_sort`** ends and leaves a list of the same elements, in place, sorted, with elements
that are equivalent under `less` in the order they had. -/
theorem listSort_sorts {less : ℕ → ℕ → Bool} (hless : StrictWeak less) (h : IsList m list l)
    (hfuel : l.length + 1 < fuel) :
    Returns (listSort less fuel list) m fun _ m' => ∃ l', IsList m' list l' ∧ l'.Perm l ∧ l'.Nodup ∧
      Sorted less l' ∧ (∀ c, l'.filter (equivalent less c) = l.filter (equivalent less c)) ∧
      SameOff (cells list l) m m' := by
  obtain ⟨passes, rfl⟩ : ∃ passes, fuel = passes + 1 := ⟨fuel - 1, by omega⟩
  have hruns := length_runs_le less l
  obtain ⟨l', hpasses, hsorted⟩ := sortPasses_returns hless passes l (by omega)
  have hperm := sortPasses_perm hpasses
  have hlist : list ≠ 0 := h.ne_zero (mem_cells.2 (.inl rfl))
  unfold listSort
  rw [if_neg hlist]
  refine (sortLoop_returns hless h hpasses (by omega)).seq fun _ m' hm' => ?_
  obtain ⟨hlist', hsame⟩ := hm'
  refine (listBegin_returns hlist').seq ?_
  rintro first m'' ⟨rfl, rfl⟩
  refine (listEnd_returns hlist').seq ?_
  rintro stop m'' ⟨rfl, rfl⟩
  have hwhole : IsList m'' list ([] ++ l' ++ []) := by rwa [List.nil_append, List.append_nil]
  have hroom : l'.length < passes + 1 := by
    rw [hperm.length_eq]
    omega
  have hcheck := isSorted_returns hwhole hsorted hroom
  rw [List.append_nil] at hcheck
  refine hcheck.seq ?_
  rintro sorted m'' ⟨rfl, rfl⟩
  rw [if_neg nofun]
  exact returns_pure.2 ⟨l', hlist', hperm, hlist'.nodup, hsorted,
    fun c => sortPasses_filter hless c hpasses, hsame⟩

/-- A list at 16 of an element at 100 and one at 50. -/
def twoElements : Prog Memory Unit := do
  listInit 16
  listPushBack 16 100
  listPushBack 16 50

theorem twoElements_returns : Returns twoElements (fun _ => 0) fun _ m => IsList m 16 [100, 50] := by
  refine (listInit_returns (by decide) (by decide)).seq fun _ m hm => ?_
  refine (listPushBack_returns hm.1 (by decide) fun x hx => ?_).seq fun _ m' hm' => ?_
  · simp only [mem_cells, List.not_mem_nil, false_or, listHead, listTail] at hx
    unfold Apart
    omega
  · refine (listPushBack_returns hm'.1 (by decide) fun x hx => ?_).mono fun _ m'' hm'' => hm''.1
    simp only [mem_cells, List.nil_append, List.mem_singleton, listHead, listTail] at hx
    unfold Apart
    omega

theorem strictWeak_lt : StrictWeak fun a b : ℕ => decide (a < b) where
  asymm a b h := by
    rw [decide_eq_true_eq] at h
    rw [decide_eq_false_iff_not]
    omega
  cotrans a b c hab hbc := by
    rw [decide_eq_false_iff_not] at hab hbc ⊢
    omega

/-- The two elements are sorted by their addresses. -/
theorem listSort_sorts_two :
    Returns twoElements (fun _ => 0) fun _ m =>
      Returns (listSort (fun a b => decide (a < b)) 4 16) m fun _ m' => ∃ l', IsList m' 16 l' ∧
        l'.Perm [100, 50] ∧ l'.Nodup ∧ Sorted (fun a b => decide (a < b)) l' ∧
        (∀ c, l'.filter (equivalent (fun a b => decide (a < b)) c) =
          [100, 50].filter (equivalent (fun a b => decide (a < b)) c)) ∧
        SameOff (cells 16 [100, 50]) m m' :=
  twoElements_returns.mono fun _ _ hm => listSort_sorts strictWeak_lt hm (by decide)

end Linked

end Lib
end CS162

/-
# Doubly linked lists of the kernel

`projects1-3/src/lib/kernel/list.c`, lines 34-264: `list_init`, `list_begin`, `list_end`,
`list_insert`, `list_push_front`, `list_push_back`, `list_remove`, `list_front`,
`list_pop_front` and `list_empty`, with their assertions.

A `struct list_elem` is `prev` and `next`, eight bytes; a `struct list` is the two elements
`head` and `tail`.  `IsList m list l` says that the memory holds a list of the elements `l`.
-/

import CS162.Basis.Links
import CS162.Basis.Pointers

namespace CS162
namespace Lib

open CS162.Basis

def prevAt (m : Memory) (elem : ℕ) : ℕ := fieldAt m elem 0

def nextAt (m : Memory) (elem : ℕ) : ℕ := fieldAt m elem 4

/-- `is_interior`. -/
def isInterior (elem : ℕ) : Prog Memory Bool :=
  if elem = 0 then return false else do
  let prev ← readField elem 0
  let next ← readField elem 4
  return decide (prev ≠ 0) && decide (next ≠ 0)

/-- `is_tail`. -/
def isTail (elem : ℕ) : Prog Memory Bool :=
  if elem = 0 then return false else do
  let prev ← readField elem 0
  let next ← readField elem 4
  return decide (prev ≠ 0) && decide (next = 0)

/-- The addresses of `head` and `tail`. -/
def listHead (list : ℕ) : ℕ := list

def listTail (list : ℕ) : ℕ := list + 8

/-- `list_init`. -/
def listInit (list : ℕ) : Prog Memory Unit := do
  writeField (listHead list) 0 0
  writeField (listHead list) 4 (listTail list)
  writeField (listTail list) 0 (listHead list)
  writeField (listTail list) 4 0

/-- `list_begin`. -/
def listBegin (list : ℕ) : Prog Memory ℕ := readField (listHead list) 4

/-- `list_end`. -/
def listEnd (list : ℕ) : Prog Memory ℕ := if list = 0 then halt else return listTail list

/-- `list_empty`. -/
def listEmpty (list : ℕ) : Prog Memory Bool := do
  let first ← listBegin list
  let last ← listEnd list
  return decide (first = last)

/-- `list_insert`. -/
def listInsert (before elem : ℕ) : Prog Memory Unit := do
  let interior ← isInterior before
  let tail ← isTail before
  if (interior || tail) = false ∨ elem = 0 then halt else do
  let prev ← readField before 0
  writeField elem 0 prev
  writeField elem 4 before
  let prev ← readField before 0
  writeField prev 4 elem
  writeField before 0 elem

/-- `list_push_front`. -/
def listPushFront (list elem : ℕ) : Prog Memory Unit := do
  let before ← listBegin list
  listInsert before elem

/-- `list_push_back`. -/
def listPushBack (list elem : ℕ) : Prog Memory Unit := do
  let before ← listEnd list
  listInsert before elem

/-- `list_remove`. -/
def listRemove (elem : ℕ) : Prog Memory ℕ := do
  let interior ← isInterior elem
  if interior = false then halt else do
  let prev ← readField elem 0
  let next ← readField elem 4
  writeField prev 4 next
  let next ← readField elem 4
  let prev ← readField elem 0
  writeField next 0 prev
  readField elem 4

/-- `list_front`. -/
def listFront (list : ℕ) : Prog Memory ℕ := do
  let empty ← listEmpty list
  if empty = true then halt else
  readField (listHead list) 4

/-- `list_pop_front`. -/
def listPopFront (list : ℕ) : Prog Memory ℕ := do
  let front ← listFront list
  let _ ← listRemove front
  return front

/-! ### Lists in memory -/

/-- Two elements lie apart. -/
def Apart (x y : ℕ) : Prop := x + 8 ≤ y ∨ y + 8 ≤ x

/-- The elements of a list with its head and tail. -/
def cells (list : ℕ) (l : List ℕ) : List ℕ := listHead list :: (l ++ [listTail list])

/-- **The memory holds a list** of the elements `l`. -/
structure IsList (m : Memory) (list : ℕ) (l : List ℕ) : Prop where
  linked : DoublyLinked (prevAt m) (nextAt m) (cells list l)
  first : prevAt m (listHead list) = 0
  last : nextAt m (listTail list) = 0
  apart : (cells list l).Pairwise Apart
  inside : ∀ x ∈ cells list l, 0 < x ∧ x + 8 ≤ 2 ^ 32

/-- Nothing but the elements changes. -/
def SameOff (xs : List ℕ) (m m' : Memory) : Prop :=
  ∀ p, (∀ x ∈ xs, p < x ∨ x + 8 ≤ p) → m' p = m p

variable {m m' : Memory} {list x y v e : ℕ} {l l₁ l₂ xs ys : List ℕ}

theorem mem_cells : x ∈ cells list l ↔ x = listHead list ∨ x ∈ l ∨ x = listTail list := by
  unfold cells
  rw [List.mem_cons, List.mem_append, List.mem_singleton]

theorem Apart.symm (h : Apart x y) : Apart y x := Or.symm h

instance : Std.Symm Apart := ⟨fun _ _ => Apart.symm⟩

theorem Apart.ne (h : Apart x y) : x ≠ y := by
  rintro rfl
  unfold Apart at h
  omega

theorem SameOff.refl : SameOff xs m m := fun _ _ => rfl

theorem SameOff.mono (h : SameOff xs m m') (hsub : xs ⊆ ys) : SameOff ys m m' :=
  fun p hp => h p fun x hx => hp x (hsub hx)

theorem SameOff.trans {m'' : Memory} (h : SameOff xs m m') (h' : SameOff xs m' m'') :
    SameOff xs m m'' :=
  fun p hp => (h' p hp).trans (h p hp)

theorem sameOff_set {off : ℕ} (hx : x ∈ xs) (hoff : off + 4 ≤ 8) :
    SameOff xs m (setFieldAt m x off v) := by
  intro p hp
  refine setFieldAt_of_apart ?_
  have hxp := hp x hx
  omega

/-- A list is in its elements. -/
theorem IsList.congr (h : IsList m list l)
    (heq : ∀ x ∈ cells list l, ∀ p, x ≤ p → p < x + 8 → m' p = m p) : IsList m' list l := by
  have hprev : ∀ x ∈ cells list l, prevAt m' x = prevAt m x := fun x hx =>
    fieldAt_congr fun p hlo hhi => heq x hx p (by omega) (by omega)
  have hnext : ∀ x ∈ cells list l, nextAt m' x = nextAt m x := fun x hx =>
    fieldAt_congr fun p hlo hhi => heq x hx p (by omega) (by omega)
  refine ⟨h.linked.congr (fun x hx => ?_) (fun x hx => ?_), ?_, ?_, h.apart, h.inside⟩
  · exact hnext x ((List.dropLast_sublist _).subset hx)
  · exact hprev x (List.mem_of_mem_tail hx)
  · exact (hprev _ (mem_cells.2 (.inl rfl))).trans h.first
  · exact (hnext _ (mem_cells.2 (.inr (.inr rfl)))).trans h.last

theorem IsList.nodup (h : IsList m list l) : l.Nodup := by
  have hrest := (List.pairwise_cons.1 h.apart).2
  exact (List.pairwise_append.1 hrest).1.imp Apart.ne

/-! ### Links after a write -/

theorem prevAt_set_prev (hv : v < 2 ^ 32) : prevAt (setFieldAt m x 0 v) x = v := fieldAt_set_self hv

theorem nextAt_set_next (hv : v < 2 ^ 32) : nextAt (setFieldAt m x 4 v) x = v := fieldAt_set_self hv

theorem prevAt_set_prev_of_apart (h : Apart x y) : prevAt (setFieldAt m y 0 v) x = prevAt m x := by
  refine fieldAt_set_of_apart ?_
  unfold Apart at h
  omega

theorem nextAt_set_next_of_apart (h : Apart x y) : nextAt (setFieldAt m y 4 v) x = nextAt m x := by
  refine fieldAt_set_of_apart ?_
  unfold Apart at h
  omega

theorem prevAt_set_next (h : x = y ∨ Apart x y) : prevAt (setFieldAt m y 4 v) x = prevAt m x := by
  refine fieldAt_set_of_apart ?_
  unfold Apart at h
  omega

theorem nextAt_set_prev (h : x = y ∨ Apart x y) : nextAt (setFieldAt m y 0 v) x = nextAt m x := by
  refine fieldAt_set_of_apart ?_
  unfold Apart at h
  omega

/-! ### The functions -/

section Functions

variable {a b : ℕ} {pre post : List ℕ} {Q : Bool → Memory → Prop}

/-- Elements of a list are not null. -/
theorem IsList.ne_zero (h : IsList m list l) (hx : x ∈ cells list l) : x ≠ 0 :=
  Nat.ne_of_gt (h.inside x hx).1

theorem IsList.eq_or_apart (h : IsList m list l) (hx : x ∈ cells list l) (hy : y ∈ cells list l) :
    x = y ∨ Apart x y := by
  by_cases hxy : x = y
  · exact .inl hxy
  · exact .inr (h.apart.forall hx hy hxy)

/-- Two neighbours, and those before and behind them. -/
structure Between (m : Memory) (list : ℕ) (l pre : List ℕ) (a b : ℕ) (post : List ℕ) : Prop where
  isList : IsList m list l
  cells : cells list l = pre ++ a :: b :: post

theorem Between.left_mem (h : Between m list l pre a b post) : a ∈ Lib.cells list l := by
  simp [h.cells]

theorem Between.right_mem (h : Between m list l pre a b post) : b ∈ Lib.cells list l := by
  simp [h.cells]

theorem Between.links (h : Between m list l pre a b post) : nextAt m a = b ∧ prevAt m b = a := by
  have hlinked := h.isList.linked
  rw [h.cells] at hlinked
  exact (List.isChain_append_cons_cons.1 hlinked).2.1

/-- The elements that lie apart from the left one. -/
theorem Between.apart_left (h : Between m list l pre a b post) (hx : x ∈ pre ++ b :: post) :
    x ∈ Lib.cells list l ∧ Apart x a := by
  have hpairs := h.isList.apart
  rw [h.cells] at hpairs ⊢
  obtain ⟨-, hmid, hpre⟩ := List.pairwise_append.1 hpairs
  rcases List.mem_append.1 hx with hx | hx
  · exact ⟨List.mem_append_left _ hx, hpre x hx a List.mem_cons_self⟩
  · exact ⟨List.mem_append_right _ (List.mem_cons_of_mem a hx),
      ((List.pairwise_cons.1 hmid).1 x hx).symm⟩

/-- The elements that lie apart from the right one. -/
theorem Between.apart_right (h : Between m list l pre a b post) (hx : x ∈ pre ++ a :: post) :
    x ∈ Lib.cells list l ∧ Apart x b := by
  have hpairs := h.isList.apart
  rw [h.cells] at hpairs ⊢
  obtain ⟨-, hmid, hpre⟩ := List.pairwise_append.1 hpairs
  obtain ⟨hab, hpost⟩ := List.pairwise_cons.1 hmid
  rcases List.mem_append.1 hx with hx | hx
  · exact ⟨List.mem_append_left _ hx, hpre x hx b (by simp)⟩
  · rcases List.mem_cons.1 hx with rfl | hx
    · exact ⟨by simp, hab b List.mem_cons_self⟩
    · exact ⟨by simp [hx], ((List.pairwise_cons.1 hpost).1 x hx).symm⟩

/-- The head is before what is on the right. -/
theorem Between.head_mem (h : Between m list l pre a b post) : listHead list ∈ pre ++ a :: post := by
  have hcells := h.cells
  cases pre with
  | nil => exact List.mem_cons.2 (.inl (List.cons.inj hcells).1)
  | cons x pre => exact List.mem_cons.2 (.inl (List.cons.inj hcells).1)

/-- The tail is behind what is on the left. -/
theorem Between.tail_mem (h : Between m list l pre a b post) : listTail list ∈ pre ++ b :: post := by
  have hcells := congrArg List.getLast? h.cells
  have htail : (Lib.cells list l).getLast? = some (listTail list) := by
    unfold Lib.cells
    rw [← List.cons_append, List.getLast?_concat]
  rw [htail, List.getLast?_append, List.getLast?_cons_cons] at hcells
  refine List.mem_append_right _ (List.mem_of_getLast? ?_)
  rw [List.getLast?_cons] at hcells ⊢
  exact hcells.symm

theorem cells_perm (e : ℕ) (l₁ l₂ : List ℕ) :
    (cells list (l₁ ++ e :: l₂)).Perm (e :: cells list (l₁ ++ l₂)) := by
  unfold cells
  rw [List.append_assoc, List.append_assoc, ← List.cons_append, ← List.cons_append]
  exact List.perm_middle

/-- An element or the tail, not the head. -/
theorem returns_isInterior_or_isTail {α : Type} {f : Bool → Bool → Prog Memory α}
    {Q : α → Memory → Prop} (hx : x ≠ 0) (hprev : prevAt m x ≠ 0)
    (h : ∀ i t, (i || t) = true → Returns (f i t) m Q) :
    Returns (do let i ← isInterior x; let t ← isTail x; f i t) m Q := by
  unfold isInterior isTail
  rw [if_neg hx, if_neg hx]
  simp only [bind_assoc, pure_bind]
  rw [returns_readField hx, returns_readField hx, returns_readField hx, returns_readField hx]
  refine h _ _ ?_
  have hprev' : fieldAt m x 0 ≠ 0 := hprev
  by_cases hnext : fieldAt m x 4 = 0
  · simp [hprev', hnext]
  · simp [hprev', hnext]

/-- The memory after `elem` has been put in. -/
def inserted (m : Memory) (a e b : ℕ) : Memory :=
  setFieldAt (setFieldAt (setFieldAt (setFieldAt m e 0 a) e 4 b) a 4 e) b 0 e

theorem nextAt_inserted (hb : x = b ∨ Apart x b) (ha : Apart x a) (he : Apart x e) :
    nextAt (inserted m a e b) x = nextAt m x := by
  unfold inserted
  rw [nextAt_set_prev hb, nextAt_set_next_of_apart ha, nextAt_set_next_of_apart he,
    nextAt_set_prev (.inr he)]

theorem prevAt_inserted (hb : Apart x b) (ha : x = a ∨ Apart x a) (he : Apart x e) :
    prevAt (inserted m a e b) x = prevAt m x := by
  unfold inserted
  rw [prevAt_set_prev_of_apart hb, prevAt_set_next ha, prevAt_set_next (.inr he),
    prevAt_set_prev_of_apart he]

/-- The four writes of `list_insert`. -/
theorem listInsert_run (h : Between m list l pre a b post) (he : e ≠ 0) (heb : Apart e b) :
    Returns (listInsert b e) m fun _ m' => m' = inserted m a e b := by
  have hprev := h.links.2
  have ha0 := h.isList.ne_zero h.left_mem
  have hb0 := h.isList.ne_zero h.right_mem
  have hprev' : ∀ {m' : Memory}, prevAt m' b = prevAt m b → fieldAt m' b 0 = a :=
    fun heq => heq.trans hprev
  unfold listInsert
  refine returns_isInterior_or_isTail hb0 (by rwa [hprev]) fun i t hit => ?_
  rw [if_neg (by simp [hit, he]), returns_readField hb0, returns_writeField he,
    returns_writeField he, returns_readField hb0, hprev' rfl, hprev', returns_writeField ha0,
    returns_writeField_last hb0]
  · rfl
  · rw [prevAt_set_next (.inr heb.symm), prevAt_set_prev_of_apart heb.symm]

/-- The list with an element put between two others. -/
theorem isList_inserted (h : Between m list (l₁ ++ l₂) pre a b post)
    (hnew : cells list (l₁ ++ e :: l₂) = pre ++ a :: e :: b :: post)
    (he : 0 < e ∧ e + 8 ≤ 2 ^ 32) (hapart : ∀ x ∈ cells list (l₁ ++ l₂), Apart x e) :
    IsList (inserted m a e b) list (l₁ ++ e :: l₂) ∧
      SameOff (e :: cells list (l₁ ++ l₂)) m (inserted m a e b) := by
  have hea := hapart a h.left_mem
  have heb := hapart b h.right_mem
  have hab := (h.apart_right (x := a) (by simp)).2
  have ha32 := h.isList.inside a h.left_mem
  have hb32 := h.isList.inside b h.right_mem
  have hpairs := h.isList.apart
  refine ⟨⟨?_, ?_, ?_, ?_, fun x hx => ?_⟩, ?_⟩
  · have hlinked := h.isList.linked
    rw [h.cells] at hlinked
    rw [hnew]
    refine hlinked.insert ⟨?_, ?_⟩ ⟨?_, ?_⟩ (fun x hx => ?_) fun x hx => ?_
    · unfold inserted
      rw [nextAt_set_prev (.inr hab), nextAt_set_next (by omega)]
    · unfold inserted
      rw [prevAt_set_prev_of_apart heb.symm, prevAt_set_next (.inr hea.symm), prevAt_set_next (.inl rfl),
        prevAt_set_prev (by omega)]
    · unfold inserted
      rw [nextAt_set_prev (.inr heb.symm), nextAt_set_next_of_apart hea.symm, nextAt_set_next (by omega)]
    · unfold inserted
      rw [prevAt_set_prev (by omega)]
    · obtain ⟨hmem, hxa⟩ := h.apart_left hx
      exact nextAt_inserted (h.isList.eq_or_apart hmem h.right_mem) hxa (hapart x hmem)
    · obtain ⟨hmem, hxb⟩ := h.apart_right hx
      exact prevAt_inserted hxb (h.isList.eq_or_apart hmem h.left_mem) (hapart x hmem)
  · obtain ⟨hmem, hapartb⟩ := h.apart_right h.head_mem
    rw [prevAt_inserted hapartb (h.isList.eq_or_apart hmem h.left_mem) (hapart _ hmem)]
    exact h.isList.first
  · obtain ⟨hmem, haparta⟩ := h.apart_left h.tail_mem
    rw [nextAt_inserted (h.isList.eq_or_apart hmem h.right_mem) haparta (hapart _ hmem)]
    exact h.isList.last
  · refine ((cells_perm e l₁ l₂).pairwise_iff Apart.symm).2 (List.pairwise_cons.2 ⟨fun x hx => ?_, hpairs⟩)
    exact (hapart x hx).symm
  · rcases List.mem_cons.1 ((cells_perm e l₁ l₂).mem_iff.1 hx) with rfl | hx
    · exact he
    · exact h.isList.inside x hx
  · unfold inserted
    have hsub := List.subset_cons_self e (cells list (l₁ ++ l₂))
    exact (((sameOff_set (List.mem_cons_self) (by omega)).trans (sameOff_set List.mem_cons_self (by omega))).trans
      (sameOff_set (hsub h.left_mem) (by omega))).trans (sameOff_set (hsub h.right_mem) (by omega))

/-- **`list_insert`** puts an element between two others. -/
theorem listInsert_returns (h : Between m list (l₁ ++ l₂) pre a b post)
    (hnew : cells list (l₁ ++ e :: l₂) = pre ++ a :: e :: b :: post)
    (he : 0 < e ∧ e + 8 ≤ 2 ^ 32) (hapart : ∀ x ∈ cells list (l₁ ++ l₂), Apart x e) :
    Returns (listInsert b e) m fun _ m' =>
      IsList m' list (l₁ ++ e :: l₂) ∧ SameOff (e :: cells list (l₁ ++ l₂)) m m' := by
  have heb := hapart b h.right_mem
  refine (listInsert_run h (Nat.ne_of_gt he.1) heb.symm).mono fun _ m' hm' => ?_
  rw [hm']
  exact isList_inserted h hnew he hapart

theorem exists_concat (x : ℕ) (xs : List ℕ) : ∃ pre a, x :: xs = pre ++ [a] :=
  ⟨_, _, (List.dropLast_append_getLast (List.cons_ne_nil x xs)).symm⟩

theorem exists_first (xs : List ℕ) (x : ℕ) : ∃ b post, xs ++ [x] = b :: post :=
  List.exists_cons_of_ne_nil (List.append_ne_nil_of_right_ne_nil xs (List.cons_ne_nil x []))

/-- The first of the elements and the tail is behind the head. -/
theorem IsList.between_front (h : IsList m list l) :
    ∃ b post, l ++ [listTail list] = b :: post ∧ Between m list l [] (listHead list) b post := by
  obtain ⟨b, post, hb⟩ := exists_first l (listTail list)
  refine ⟨b, post, hb, h, ?_⟩
  unfold cells
  rw [hb]
  rfl

theorem IsList.between_back (h : IsList m list l) :
    ∃ pre a, listHead list :: l = pre ++ [a] ∧ Between m list l pre a (listTail list) [] := by
  obtain ⟨pre, a, ha⟩ := exists_concat (listHead list) l
  refine ⟨pre, a, ha, h, ?_⟩
  unfold cells
  rw [← List.cons_append, ha, List.append_assoc]
  rfl

/-- **`list_push_front`.** -/
theorem listPushFront_returns (h : IsList m list l) (he : 0 < e ∧ e + 8 ≤ 2 ^ 32)
    (hapart : ∀ x ∈ cells list l, Apart x e) :
    Returns (listPushFront list e) m fun _ m' =>
      IsList m' list (e :: l) ∧ SameOff (e :: cells list l) m m' := by
  obtain ⟨b, post, hb, hbetween⟩ := h.between_front
  have hhead : listHead list ≠ 0 := h.ne_zero hbetween.left_mem
  have hnext : fieldAt m (listHead list) 4 = b := hbetween.links.1
  unfold listPushFront listBegin
  rw [returns_readField hhead, hnext]
  have hnew : cells list ([] ++ e :: l) = [] ++ listHead list :: e :: b :: post := by
    unfold cells
    rw [List.nil_append, List.cons_append, hb]
    rfl
  exact listInsert_returns hbetween hnew he hapart

/-- **`list_push_back`.** -/
theorem listPushBack_returns (h : IsList m list l) (he : 0 < e ∧ e + 8 ≤ 2 ^ 32)
    (hapart : ∀ x ∈ cells list l, Apart x e) :
    Returns (listPushBack list e) m fun _ m' =>
      IsList m' list (l ++ [e]) ∧ SameOff (e :: cells list l) m m' := by
  obtain ⟨pre, a, ha, hbetween⟩ := h.between_back
  have hlist : list ≠ 0 := h.ne_zero (mem_cells.2 (.inl rfl))
  unfold listPushBack listEnd
  rw [if_neg hlist, returns_pure_bind]
  rw [← List.append_nil l] at hbetween hapart
  have hinsert := listInsert_returns hbetween ?_ he hapart
  · rw [List.append_nil] at hinsert
    exact hinsert
  unfold cells
  rw [← List.cons_append, ← List.cons_append, ha]
  simp

/-- The memory after `list_remove`. -/
def removed (m : Memory) (a b : ℕ) : Memory := setFieldAt (setFieldAt m a 4 b) b 0 a

theorem nextAt_removed (hb : x = b ∨ Apart x b) (ha : Apart x a) :
    nextAt (removed m a b) x = nextAt m x := by
  unfold removed
  rw [nextAt_set_prev hb, nextAt_set_next_of_apart ha]

theorem prevAt_removed (hb : Apart x b) (ha : x = a ∨ Apart x a) :
    prevAt (removed m a b) x = prevAt m x := by
  unfold removed
  rw [prevAt_set_prev_of_apart hb, prevAt_set_next ha]

theorem returns_isInterior {f : Bool → Prog Memory ℕ} {Q : ℕ → Memory → Prop} (hx : x ≠ 0)
    (hprev : prevAt m x ≠ 0) (hnext : nextAt m x ≠ 0) (h : Returns (f true) m Q) :
    Returns (isInterior x >>= f) m Q := by
  unfold isInterior
  rw [if_neg hx]
  simp only [bind_assoc, pure_bind]
  rw [returns_readField hx, returns_readField hx]
  change prevAt m x ≠ 0 at hprev
  change Returns (f (decide (prevAt m x ≠ 0) && decide (nextAt m x ≠ 0))) m Q
  rwa [decide_eq_true hprev, decide_eq_true hnext]

/-- An element of a list, and its neighbours. -/
structure Around (m : Memory) (list : ℕ) (l₁ : List ℕ) (e : ℕ) (l₂ pre : List ℕ) (a b : ℕ)
    (post : List ℕ) : Prop where
  left : Between m list (l₁ ++ e :: l₂) pre a e (b :: post)
  right : Between m list (l₁ ++ e :: l₂) (pre ++ [a]) e b post
  before : listHead list :: l₁ = pre ++ [a]
  behind : l₂ ++ [listTail list] = b :: post

theorem IsList.around (h : IsList m list (l₁ ++ e :: l₂)) :
    ∃ pre a b post, Around m list l₁ e l₂ pre a b post := by
  obtain ⟨pre, a, ha⟩ := exists_concat (listHead list) l₁
  obtain ⟨b, post, hb⟩ := exists_first l₂ (listTail list)
  have hcells : cells list (l₁ ++ e :: l₂) = pre ++ a :: e :: b :: post := by
    unfold cells
    rw [List.append_assoc, ← List.cons_append, ha, List.cons_append, hb, List.append_assoc]
    rfl
  exact ⟨pre, a, b, post, ⟨h, hcells⟩, ⟨h, by simp [hcells]⟩, ha, hb⟩

/-- The cells that are left without the element. -/
theorem Around.cells_removed (h : Around m list l₁ e l₂ pre a b post) :
    cells list (l₁ ++ l₂) = pre ++ a :: b :: post := by
  unfold cells
  rw [List.append_assoc, ← List.cons_append, h.before, h.behind, List.append_assoc]
  rfl

/-- The writes of `list_remove`. -/
theorem listRemove_run (h : Around m list l₁ e l₂ pre a b post) :
    Returns (listRemove e) m fun _ m' => m' = removed m a b := by
  have hlist := h.left.isList
  have hea := (h.left.apart_left (x := e) (by simp)).2
  have ha0 := hlist.ne_zero h.left.left_mem
  have hb0 := hlist.ne_zero h.right.right_mem
  have he0 := hlist.ne_zero h.left.right_mem
  have hprev : prevAt m e = a := h.left.links.2
  have hnext : nextAt m e = b := h.right.links.1
  have hprev₁ : prevAt (setFieldAt m a 4 b) e = a := (prevAt_set_next (.inr hea)).trans hprev
  have hnext₁ : nextAt (setFieldAt m a 4 b) e = b := (nextAt_set_next_of_apart hea).trans hnext
  unfold listRemove
  refine returns_isInterior he0 (by rwa [hprev]) (by rwa [hnext]) ?_
  rw [if_neg nofun, returns_readField he0, returns_readField he0, show fieldAt m e 0 = a from hprev,
    show fieldAt m e 4 = b from hnext, returns_writeField ha0, returns_readField he0,
    returns_readField he0, show fieldAt _ e 0 = a from hprev₁, show fieldAt _ e 4 = b from hnext₁,
    returns_writeField hb0, returns_readField_last he0]
  rfl

/-- The list without the element. -/
theorem isList_removed (h : Around m list l₁ e l₂ pre a b post) :
    IsList (removed m a b) list (l₁ ++ l₂) ∧
      SameOff (cells list (l₁ ++ e :: l₂)) m (removed m a b) := by
  have hlist := h.left.isList
  have hba := (h.left.apart_left (x := b) (by simp)).2
  have ha32 := hlist.inside a h.left.left_mem
  have hb32 := hlist.inside b h.right.right_mem
  refine ⟨⟨?_, ?_, ?_, ?_, fun x hx => ?_⟩, ?_⟩
  · have hlinked := hlist.linked
    rw [h.left.cells] at hlinked
    rw [h.cells_removed]
    refine hlinked.remove ⟨?_, ?_⟩ (fun x hx => ?_) fun x hx => ?_
    · unfold removed
      rw [nextAt_set_prev (.inr hba.symm), nextAt_set_next (by omega)]
    · unfold removed
      rw [prevAt_set_prev (by omega)]
    · obtain ⟨hmem, hxa⟩ := h.left.apart_left (x := x) (by simp at hx ⊢; tauto)
      exact nextAt_removed (hlist.eq_or_apart hmem h.right.right_mem) hxa
    · obtain ⟨hmem, hxb⟩ := h.right.apart_right (x := x) (by simp at hx ⊢; tauto)
      exact prevAt_removed hxb (hlist.eq_or_apart hmem h.left.left_mem)
  · obtain ⟨hmem, hapart⟩ := h.right.apart_right h.right.head_mem
    rw [prevAt_removed hapart (hlist.eq_or_apart hmem h.left.left_mem)]
    exact hlist.first
  · obtain ⟨hmem, hapart⟩ := h.left.apart_left h.left.tail_mem
    rw [nextAt_removed (hlist.eq_or_apart hmem h.right.right_mem) hapart]
    exact hlist.last
  · have hpairs := ((cells_perm e l₁ l₂).pairwise_iff Apart.symm).1 hlist.apart
    exact (List.pairwise_cons.1 hpairs).2
  · exact hlist.inside x ((cells_perm e l₁ l₂).mem_iff.2 (List.mem_cons_of_mem e hx))
  · exact (sameOff_set h.left.left_mem (by omega)).trans (sameOff_set h.right.right_mem (by omega))

/-- **`list_remove`.** -/
theorem listRemove_returns (h : IsList m list (l₁ ++ e :: l₂)) :
    Returns (listRemove e) m fun _ m' =>
      IsList m' list (l₁ ++ l₂) ∧ SameOff (cells list (l₁ ++ e :: l₂)) m m' := by
  obtain ⟨pre, a, b, post, haround⟩ := h.around
  refine (listRemove_run haround).mono fun _ m' hm' => ?_
  rw [hm']
  exact isList_removed haround

/-- `list_empty`. -/
theorem listEmpty_returns (h : IsList m list l) :
    Returns (listEmpty list) m fun empty m' => empty = decide (l = []) ∧ m' = m := by
  obtain ⟨b, post, hb, hbetween⟩ := h.between_front
  have hlist : list ≠ 0 := h.ne_zero hbetween.left_mem
  have hnext : fieldAt m list 4 = b := hbetween.links.1
  unfold listEmpty listBegin listEnd listHead
  rw [if_neg hlist, returns_readField hlist, hnext, returns_pure_bind, returns_pure]
  refine ⟨?_, rfl⟩
  cases l with
  | nil =>
    obtain ⟨rfl, -⟩ := List.cons.inj hb
    simp
  | cons x l =>
    obtain ⟨rfl, -⟩ := List.cons.inj hb
    have hpairs := (List.pairwise_cons.1 h.apart).2
    have hne := ((List.pairwise_cons.1 hpairs).1 (listTail list) (by simp)).ne
    simp [hne]

/-- **`list_pop_front`.** -/
theorem listPopFront_returns (h : IsList m list (e :: l)) :
    Returns (listPopFront list) m fun front m' =>
      front = e ∧ IsList m' list l ∧ SameOff (cells list (e :: l)) m m' := by
  have hfront : Returns (listFront list) m fun front m' => front = e ∧ m' = m := by
    obtain ⟨b, post, hb, hbetween⟩ := h.between_front
    obtain ⟨rfl, -⟩ := List.cons.inj hb
    unfold listFront
    refine (listEmpty_returns h).seq ?_
    rintro empty m' ⟨rfl, rfl⟩
    rw [if_neg (by simp), returns_readField_last (h.ne_zero hbetween.left_mem)]
    exact ⟨hbetween.links.1, rfl⟩
  unfold listPopFront
  refine hfront.seq ?_
  rintro front m' ⟨rfl, rfl⟩
  have h' : IsList m' list ([] ++ front :: l) := h
  refine (listRemove_returns h').seq fun _ m'' hremove => ?_
  exact returns_pure.2 ⟨rfl, hremove⟩

/-- `list_init`. -/
theorem listInit_returns (hlist : 0 < list) (hfits : list + 16 ≤ 2 ^ 32) :
    Returns (listInit list) m fun _ m' => IsList m' list [] ∧ SameOff (cells list []) m m' := by
  have hapart : Apart list (list + 8) := .inl (Nat.le_refl _)
  have hhead : list ∈ cells list [] := mem_cells.2 (.inl rfl)
  have htail : list + 8 ∈ cells list [] := mem_cells.2 (.inr (.inr rfl))
  unfold listInit listHead listTail
  rw [returns_writeField (by omega), returns_writeField (by omega), returns_writeField (by omega),
    returns_writeField_last (by omega)]
  refine ⟨⟨?_, ?_, ?_, ?_, fun x hx => ?_⟩, ?_⟩
  · refine List.isChain_cons_cons.2 ⟨⟨?_, ?_⟩, .singleton _⟩
    · unfold listHead listTail
      rw [nextAt_set_next_of_apart hapart, nextAt_set_prev (.inr hapart), nextAt_set_next (by omega)]
    · unfold listHead listTail
      rw [prevAt_set_next (.inl rfl), prevAt_set_prev (by omega)]
  · unfold listHead
    rw [prevAt_set_next (.inr hapart), prevAt_set_prev_of_apart hapart, prevAt_set_next (.inl rfl),
      prevAt_set_prev (by omega)]
  · exact nextAt_set_next (by omega)
  · exact List.pairwise_pair.2 hapart
  · rcases mem_cells.1 hx with hx | hx | hx
    · unfold listHead at hx
      omega
    · cases hx
    · unfold listTail at hx
      omega
  · exact (((sameOff_set hhead (by omega)).trans (sameOff_set hhead (by omega))).trans
      (sameOff_set htail (by omega))).trans (sameOff_set htail (by omega))

end Functions

end Lib
end CS162

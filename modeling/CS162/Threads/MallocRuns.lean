/-
# Runs of malloc and free

Calls of `malloc` with sizes up to 1024 and of `free` with live blocks, in any order, and whatever
other code does in between to memory and pages of its own and inside the live blocks.
`HeapRun.live` is what the callers know, the pointers and the sizes that they asked for, and
`HeapRun.pages` the pages that calls have marked in the bitmap and not given back.

In every state that is reached each block of an arena is live or on its descriptor's free list, and
is so once, and the count in the arena's header is that of its free blocks (`HeapRun.Exact`); and
every call returns, so no assertion fails (`malloc_arenas`).
-/

import CS162.Basis.Runs
import CS162.Threads.ArenaCalls

namespace CS162
namespace Threads

open CS162.Basis CS162.Lib

/-- The heap, the live blocks, and the arenas. -/
structure HeapRun where
  heap : KernelHeap
  live : List (ℕ × ℕ)
  pages : List ℕ

/-- The pointers to the live blocks. -/
def pointers (live : List (ℕ × ℕ)) : List ℕ := live.map Prod.fst

/-- The pages marked since. -/
def Layout.taken (L : Layout) (H H' : KernelHeap) : List ℕ :=
  ((List.range L.kernelPages).filter fun k => !H.kernelMap.bits k && H'.kernelMap.bits k).map L.page

/-- The page is still marked. -/
def Layout.marked (L : Layout) (H : KernelHeap) (a : ℕ) : Bool :=
  H.kernelMap.bits (pgNo a - pgNo L.kernelBase)

/-- The arenas after a call. -/
def Layout.arenasAfter (L : Layout) (H H' : KernelHeap) (pages : List ℕ) : List ℕ :=
  L.taken H H' ++ pages.filter (L.marked H')

inductive HeapAct where
  | malloc (size : ℕ)
  | free (p : ℕ)
  | others

/-- Other code leaves alone the descriptors, the arenas but for the insides of live blocks, and the
marks of the arenas. -/
structure Others (L : Layout) (R : HeapRun) (H' : KernelHeap) : Prop where
  descCnt : H'.descCnt = R.heap.descCnt
  bitCnt : H'.kernelMap.bitCnt = R.heap.kernelMap.bitCnt
  marks : ∀ a ∈ R.pages, L.marked H' a = L.marked R.heap a
  descs : ∀ p, L.descs ≤ p → p < L.descs + 10 * sizeofDesc → H'.mem p = R.heap.mem p
  arenas : ∀ a ∈ R.pages, ∀ p, a ≤ p → p < a + pgsize →
    (∀ x ∈ R.live, p < x.1 ∨ x.1 + x.2 ≤ p) → H'.mem p = R.heap.mem p

/-- The live blocks after `malloc`. -/
def given (p size : ℕ) (live : List (ℕ × ℕ)) : List (ℕ × ℕ) := if p = 0 then live else (p, size) :: live

/-- The live blocks after `free`. -/
def without (p : ℕ) (live : List (ℕ × ℕ)) : List (ℕ × ℕ) := live.filter fun x => decide (x.1 ≠ p)

/-- A step of a run. -/
inductive HeapStep (L : Layout) (R : HeapRun) : HeapAct → HeapRun → Prop
  | malloc {size p H'} : size ≤ 1024 → (malloc L size).run R.heap = some (p, H') →
      HeapStep L R (.malloc size) ⟨H', given p size R.live, L.arenasAfter R.heap H' R.pages⟩
  | free {p H'} : p ∈ pointers R.live → (free L p).run R.heap = some ((), H') →
      HeapStep L R (.free p) ⟨H', without p R.live, L.arenasAfter R.heap H' R.pages⟩
  | others {H'} : Others L R H' → HeapStep L R .others ⟨H', R.live, R.pages⟩

/-- How many blocks of the arena are free. -/
def Arenas.freeOf (A : Arenas) (a : ℕ) : ℕ :=
  (blocks a (A.desc a)).countP fun b => decide (b ∈ A.lists (A.desc a))

/-- The lists, the counts and the pages are in step. -/
structure Kept (L : Layout) (H : KernelHeap) (pages : List ℕ) (A : Arenas) (live : List (ℕ × ℕ)) :
    Prop where
  descCnt : H.descCnt = 7
  bitCnt : H.kernelMap.bitCnt = L.kernelPages
  nodup : pages.Nodup
  marked : ∀ a ∈ pages, L.marked H a = true
  /-- The descriptors, the headers, and the free lists, which hold blocks of the arenas only. -/
  shape : Shape L H.mem pages A
  /-- An arena's `free_cnt`. -/
  freeCnt : ∀ a ∈ pages, fieldAt H.mem a 8 = A.freeOf a
  /-- Each block is live or on its descriptor's free list, and is so once. -/
  once : ∀ a ∈ pages, ∀ b ∈ blocks a (A.desc a),
    (pointers live).count b + (A.lists (A.desc a)).count b = 1
  /-- A live block is a block of an arena, of at least the size that was asked for. -/
  live : ∀ x ∈ live, ∃ a ∈ pages, x.1 ∈ blocks a (A.desc a) ∧ x.2 ≤ blockSize (A.desc a)

/-- **The arenas are exact**: besides, each arena has a live block, and live blocks have no byte in
common. -/
structure HeapRun.Exact (L : Layout) (R : HeapRun) (A : Arenas) : Prop where
  kept : Kept L R.heap R.pages A R.live
  busy : ∀ a ∈ R.pages, ∃ b ∈ blocks a (A.desc a), b ∈ pointers R.live
  apart : R.live.Pairwise fun x y => x.1 + blockSize (A.desc (pgRoundDown x.1)) ≤ y.1 ∨
    y.1 + blockSize (A.desc (pgRoundDown y.1)) ≤ x.1

/-- `malloc` returns, and gives back no page; it fails only where there is no free page. -/
def HeapRun.MallocRight (L : Layout) (R : HeapRun) (size : ℕ) : Prop :=
  Returns (malloc L size) R.heap fun p H' =>
    (∀ a ∈ R.pages, L.marked H' a = true) ∧ p ∉ pointers R.live ∧
      (p = 0 → size = 0 ∨ ∀ k < L.kernelPages, R.heap.kernelMap.bits k = true)

/-- `free` returns, and gives back a page exactly when no other block of it is live. -/
def HeapRun.FreeRight (L : Layout) (R : HeapRun) (p : ℕ) : Prop :=
  Returns (free L p) R.heap fun _ H' => ∀ a ∈ R.pages, L.marked H' a = false ↔
    pgRoundDown p = a ∧ ∀ x ∈ R.live, x.1 ≠ p → pgRoundDown x.1 ≠ a

/-- What holds in every state that is reached. -/
structure HeapRun.Right (L : Layout) (R : HeapRun) : Prop where
  exact : ∃ A, R.Exact L A
  malloc : ∀ size ≤ 1024, R.MallocRight L size
  free : ∀ p ∈ pointers R.live, R.FreeRight L p

/-! ### Taking a block, and putting one back -/

section Kept

variable {L : Layout} {H : KernelHeap} {m : Memory} {pages : List ℕ} {A : Arenas} {live : List (ℕ × ℕ)}
  {a b c i k p size : ℕ} {l : List ℕ}

theorem countP_mem_cons (bs l : List ℕ) (h : b ∉ l) :
    (bs.countP fun c => decide (c ∈ b :: l)) = (bs.countP fun c => decide (c ∈ l)) + bs.count b := by
  induction bs with
  | nil => rfl
  | cons c bs ih =>
    rw [List.countP_cons, List.countP_cons, List.count_cons, ih]
    by_cases hcb : c = b
    · subst hcb
      simp [h]
      omega
    · simp [hcb]
      omega

/-- A block is in one page. -/
theorem not_mem_blocks (ha : L.IsPage a) (hc : L.IsPage c) (hne : c ≠ a) (hb : b ∈ blocks a i) {j : ℕ} :
    b ∉ blocks c j := by
  intro hbc
  have hpages := pages_apart ha.pgOfs hc.pgOfs (Ne.symm hne)
  have hba := bounds_of_mem_blocks hb
  have hbc' := bounds_of_mem_blocks hbc
  have hsize := blockSize_pos i
  have hsize' := blockSize_pos j
  omega

/-- How many blocks are free after the list has got, or lost, one in front. -/
theorem freeOf_setList_cons (hpage : ∀ a ∈ pages, L.IsPage a) (ha : a ∈ pages) (hb : b ∈ blocks a (A.desc a))
    (hnew : b ∉ l) (hc : c ∈ pages) : (A.setList (A.desc a) (b :: l)).freeOf c =
      (A.setList (A.desc a) l).freeOf c + if c = a then 1 else 0 := by
  have hcount : (blocks c (A.desc c)).count b = if c = a then 1 else 0 := by
    split
    · rename_i hca
      subst hca
      exact List.count_eq_one_of_mem (nodup_blocks c _) hb
    · rename_i hca
      exact List.count_eq_zero_of_not_mem (not_mem_blocks (hpage a ha) (hpage c hc) hca hb)
  unfold Arenas.freeOf
  by_cases hdesc : A.desc c = A.desc a
  · change ((blocks c (A.desc c)).countP fun d => decide (d ∈ (A.setList _ _).lists (A.desc c))) =
      ((blocks c (A.desc c)).countP fun d => decide (d ∈ (A.setList _ _).lists (A.desc c))) + _
    rw [← hcount, hdesc, lists_setList_self, lists_setList_self]
    exact countP_mem_cons _ _ hnew
  · have hca : c ≠ a := fun heq => hdesc (congrArg A.desc heq)
    change ((blocks c (A.desc c)).countP fun d => decide (d ∈ (A.setList _ _).lists (A.desc c))) =
      ((blocks c (A.desc c)).countP fun d => decide (d ∈ (A.setList _ _).lists (A.desc c))) + _
    rw [lists_setList_of_ne _ _ hdesc, lists_setList_of_ne _ _ hdesc, if_neg hca]
    rfl

theorem Kept.free_not_live (h : Kept L H pages A live) (ha : a ∈ pages) (hb : b ∈ blocks a (A.desc a)) :
    b ∈ A.lists (A.desc a) ↔ b ∉ pointers live := by
  have hone := h.once a ha b hb
  rw [← List.count_pos_iff, ← List.count_eq_zero]
  omega

theorem freeOf_le (A : Arenas) (a : ℕ) : A.freeOf a ≤ blocksPerArena (A.desc a) :=
  length_blocks a (A.desc a) ▸ List.countP_le_length

/-- The page of a block is its arena. -/
theorem Kept.pgRoundDown (h : Kept L H pages A live) (ha : a ∈ pages) (hb : b ∈ blocks a i) :
    Threads.pgRoundDown b = a :=
  pgRoundDown_of_mem_blocks (h.shape.isPage a ha).pgOfs hb

theorem pointers_cons (p size : ℕ) (live : List (ℕ × ℕ)) :
    pointers ((p, size) :: live) = p :: pointers live := rfl

/-- **A free block becomes live.** -/
theorem Kept.take (h : Kept L H pages A live) (ha : a ∈ pages) (hai : A.desc a = i) (hb : b ∈ blocks a i)
    (hl : A.lists i = b :: l) (hsize : size ≤ blockSize i) :
    Returns (takeBlock (L.desc i)) H fun r H' => r = b ∧ b ∉ pointers live ∧ H'.kernelMap = H.kernelMap ∧
      Kept L H' pages (A.setList i l) ((b, size) :: live) := by
  subst hai
  have hi := (h.shape.page a ha).2
  have hfree : b ∈ A.lists (A.desc a) := hl ▸ List.mem_cons_self
  have hlist := (h.shape.list _ hi).nodup
  rw [hl, List.nodup_cons] at hlist
  have hnot := (h.free_not_live ha hb).1 hfree
  have hfreeOf : ∀ c ∈ pages, A.freeOf c = (A.setList (A.desc a) l).freeOf c + if c = a then 1 else 0 :=
    fun c hc => by
      rw [← freeOf_setList_cons h.shape.isPage ha hb hlist.1 hc, ← hl, setList_lists]
  refine (takeBlock_returns h.shape ha rfl hb hl).mono ?_
  rintro r _ ⟨rfl, m, rfl, hshape, hcnt⟩
  refine ⟨rfl, hnot, rfl, h.descCnt, h.bitCnt, h.nodup, h.marked, hshape, fun c hc => ?_, fun c hc d hd => ?_,
    fun x hx => ?_⟩
  · rw [hcnt c hc]
    have hc' := hfreeOf c hc
    have hle := freeOf_le A c
    have hlen := blocksPerArena_lt (A.desc c)
    split
    · rename_i hca
      subst hca
      rw [h.freeCnt c hc]
      rw [if_pos rfl] at hc'
      omega
    · rename_i hca
      rw [if_neg hca] at hc'
      exact (h.freeCnt c hc).trans hc'
  · have hone := h.once c hc d hd
    rw [pointers_cons, List.count_cons]
    by_cases hdesc : A.desc c = A.desc a
    · change _ + ((A.setList _ _).lists (A.desc c)).count d = 1
      rw [hdesc] at hone ⊢
      rw [hl, List.count_cons] at hone
      rw [lists_setList_self]
      omega
    · change _ + ((A.setList _ _).lists (A.desc c)).count d = 1
      rw [lists_setList_of_ne _ _ hdesc]
      have hne : ¬(r == d) = true := by
        rw [beq_iff_eq]
        rintro rfl
        have hca : c ≠ a := fun heq => hdesc (congrArg A.desc heq)
        exact not_mem_blocks (h.shape.isPage a ha) (h.shape.isPage c hc) hca hb hd
      rw [if_neg hne]
      exact hone
  · rcases List.mem_cons.1 hx with rfl | hx
    · exact ⟨a, ha, hb, hsize⟩
    · exact h.live x hx

/-- **A new arena**: all its blocks are free. -/
theorem Kept.newArena (h : Kept L H pages A live) (hpage : L.IsPage a) (hnew : a ∉ pages) (hi : i < 7)
    (hempty : A.lists i = []) (hmark : L.marked H a = true) :
    Returns (initArena (L.desc i) a) H fun _ H' => H'.kernelMap = H.kernelMap ∧
      Kept L H' (a :: pages) ((A.addPage a i).setList i (blocks a i)) live := by
  have hself : (A.addPage a i).desc a = i := Function.update_self ..
  have hne : ∀ c ∈ pages, c ≠ a := fun c hc heq => hnew (heq ▸ hc)
  have hdesc : ∀ c ∈ pages, (A.addPage a i).desc c = A.desc c := fun c hc =>
    Function.update_of_ne (hne c hc) ..
  have hother : ∀ c ∈ pages, ∀ b ∈ blocks c (A.desc c), b ∉ blocks a i := fun c hc b hb =>
    not_mem_blocks (h.shape.isPage c hc) hpage (Ne.symm (hne c hc)) hb
  have hnotLive : ∀ b ∈ blocks a i, b ∉ pointers live := fun b hb hmem => by
    obtain ⟨x, hx, rfl⟩ := List.mem_map.1 hmem
    obtain ⟨c, hc, hxc, -⟩ := h.live x hx
    exact hother c hc x.1 hxc hb
  -- what is free in the other arenas is as it was
  have hlists : ∀ c ∈ pages, ∀ b ∈ blocks c (A.desc c),
      (((A.addPage a i).setList i (blocks a i)).lists (A.desc c)).count b = (A.lists (A.desc c)).count b :=
    fun c hc b hb => by
      by_cases hci : A.desc c = i
      · rw [hci, lists_setList_self, hempty, List.count_nil]
        exact List.count_eq_zero_of_not_mem (hother c hc b hb)
      · rw [lists_setList_of_ne _ _ hci]
        rfl
  refine (initArena_returns h.shape hpage hnew hi hempty).mono ?_
  rintro _ _ ⟨m, rfl, hshape, hcnt, hcnta⟩
  refine ⟨rfl, h.descCnt, h.bitCnt, List.nodup_cons.2 ⟨hnew, h.nodup⟩, fun c hc => ?_, hshape,
    fun c hc => ?_, fun c hc b hb => ?_, fun x hx => ?_⟩
  · rcases List.mem_cons.1 hc with rfl | hc
    · exact hmark
    · exact h.marked c hc
  · unfold Arenas.freeOf
    change _ = (blocks c ((A.addPage a i).desc c)).countP fun b =>
      decide (b ∈ ((A.addPage a i).setList i (blocks a i)).lists ((A.addPage a i).desc c))
    rcases List.mem_cons.1 hc with rfl | hc
    · rw [hself, lists_setList_self, List.countP_eq_length.2 fun b hb => decide_eq_true hb, length_blocks]
      exact hcnta
    · rw [hdesc c hc]
      refine ((hcnt c hc).trans (h.freeCnt c hc)).trans (List.countP_congr fun b hb => ?_)
      rw [decide_eq_true_iff, decide_eq_true_iff, ← List.count_pos_iff, ← List.count_pos_iff, hlists c hc b hb]
  · change _ + (((A.addPage a i).setList i (blocks a i)).lists ((A.addPage a i).desc c)).count b = 1
    change b ∈ blocks c ((A.addPage a i).desc c) at hb
    rcases List.mem_cons.1 hc with rfl | hc
    · rw [hself] at hb ⊢
      rw [lists_setList_self, List.count_eq_zero_of_not_mem (hnotLive b hb),
        List.count_eq_one_of_mem (nodup_blocks _ _) hb]
    · rw [hdesc c hc] at hb ⊢
      rw [hlists c hc b hb]
      exact h.once c hc b hb
  · obtain ⟨c, hc, hxc, hsize⟩ := h.live x hx
    refine ⟨c, List.mem_cons_of_mem a hc, ?_, ?_⟩
    · change x.1 ∈ blocks c ((A.addPage a i).desc c)
      rwa [hdesc c hc]
    · change x.2 ≤ blockSize ((A.addPage a i).desc c)
      rwa [hdesc c hc]

theorem marked_page (L : Layout) (H : KernelHeap) (k : ℕ) : L.marked H (L.page k) = H.kernelMap.bits k := by
  unfold Layout.marked
  rw [L.pgNo_page, Nat.add_sub_cancel_left]

theorem marked_mark (L : Layout) (H : KernelHeap) (k j : ℕ) (used : Bool) :
    L.marked (H.mark k used) (L.page j) = if j = k then used else L.marked H (L.page j) := by
  rw [marked_page, marked_page]
  exact Filesys.Bitmap.bits_setMultiple_one ..

theorem page_inj {L : Layout} {j k : ℕ} (h : L.page j = L.page k) : j = k :=
  Nat.eq_of_mul_eq_mul_left (by decide) (Nat.add_left_cancel h)

/-- **An arena goes back to `palloc`**, when all its blocks are free. -/
theorem Kept.dropArena (h : Kept L H pages A live) (ha : L.page k ∈ pages) (hai : A.desc (L.page k) = i)
    (hfull : A.freeOf (L.page k) = blocksPerArena i) :
    Returns (freeArena L (L.page k) (blocksPerArena i) (blocksPerArena i)) H fun _ H' =>
      H'.kernelMap = (H.mark k false).kernelMap ∧ ∃ A', Kept L H' (pages.filter fun c => decide (c ≠ L.page k)) A' live ∧
        A'.desc = A.desc := by
  have hi : i < 7 := hai ▸ (h.shape.page _ ha).2
  have hisPage := h.shape.isPage _ ha
  have hfree : ∀ b ∈ blocks (L.page k) i, b ∈ A.lists i := by
    unfold Arenas.freeOf at hfull
    rw [hai, ← length_blocks (L.page k) i, List.countP_eq_length] at hfull
    exact fun b hb => of_decide_eq_true (hfull b hb)
  obtain ⟨j, hj, hjk⟩ := hisPage
  obtain rfl := page_inj hjk
  have hkept : ∀ c ∈ pages.filter fun c => decide (c ≠ L.page k), c ∈ pages ∧ c ≠ L.page k := fun c hc => by
    rw [List.mem_filter, decide_eq_true_iff] at hc
    exact hc
  unfold freeArena
  rw [if_neg (not_not_intro rfl)]
  refine (removeBlocks_returns h.shape ha hai (Nat.zero_add _) fun b hb => ?_).seq ?_
  · rw [List.drop_zero] at hb
    exact hfree b hb
  rintro _ _ ⟨m, rfl, hm, hcnt⟩
  rw [List.drop_zero] at hm
  set l := (A.lists i).filter fun c => decide (c ∉ blocks (L.page k) i) with hl
  -- the other arenas' blocks are on the lists as before
  have hlists : ∀ c ∈ pages, c ≠ L.page k → ∀ b ∈ blocks c (A.desc c),
      ((A.setList i l).lists (A.desc c)).count b = (A.lists (A.desc c)).count b := fun c hc hca b hb => by
    by_cases hci : A.desc c = i
    · rw [hci, lists_setList_self, hl]
      exact List.count_filter (decide_eq_true (not_mem_blocks (h.shape.isPage c hc) (h.shape.isPage _ ha)
        (Ne.symm hca) hb))
    · rw [lists_setList_of_ne _ _ hci]
  have hnone : ∀ j < 7, ∀ b ∈ (A.setList i l).lists j, b ∉ blocks (L.page k) j := fun j hj b hb hbk => by
    by_cases hji : j = i
    · subst hji
      rw [lists_setList_self, hl, List.mem_filter, decide_eq_true_iff] at hb
      exact hb.2 hbk
    · rw [lists_setList_of_ne _ _ hji] at hb
      obtain ⟨c, hc, hcj, hbc⟩ := h.shape.listed j hj b hb
      by_cases hca : c = L.page k
      · subst hca
        exact hji (hcj.symm.trans hai)
      · exact not_mem_blocks (h.shape.isPage c hc) (h.shape.isPage _ ha) (Ne.symm hca) hbc hbk
  refine (pallocFreePage_returns (H := { H with mem := m }) (h.bitCnt.symm ▸ hj) ?_).mono ?_
  · rw [← marked_page]
    exact h.marked _ ha
  rintro _ _ rfl
  have hnot : L.page k ∉ pages.filter fun c => decide (c ≠ L.page k) := fun hmem => (hkept _ hmem).2 rfl
  obtain ⟨hshape, hcnt'⟩ := (hm.forget hnone).outside (h.shape.isPage _ ha) hnot fun q hq =>
    show store m (L.page k) (List.replicate pgsize 0xcc) q = m q by
      rcases hq with hq | hq
      · exact store_of_lt hq
      · exact store_of_ge (by rwa [List.length_replicate])
  refine ⟨rfl, A.setList i l, ⟨h.descCnt, h.bitCnt, h.nodup.filter _, fun c hc => ?_, hshape, fun c hc => ?_,
    fun c hc b hb => ?_, fun x hx => ?_⟩, rfl⟩
  · obtain ⟨hc, hca⟩ := hkept c hc
    obtain ⟨n, -, rfl⟩ := h.shape.isPage c hc
    have hmark := marked_mark L H k n false
    rw [if_neg fun heq => hca (congrArg L.page heq)] at hmark
    exact hmark.trans (h.marked _ hc)
  · obtain ⟨hc', hca⟩ := hkept c hc
    refine ((hcnt' c hc).trans (hcnt c hc')).trans ((h.freeCnt c hc').trans (List.countP_congr fun b hb => ?_))
    rw [decide_eq_true_iff, decide_eq_true_iff, ← List.count_pos_iff, ← List.count_pos_iff]
    exact (hlists c hc' hca b hb) ▸ Iff.rfl
  · obtain ⟨hc', hca⟩ := hkept c hc
    change _ + ((A.setList i l).lists (A.desc c)).count b = 1
    rw [hlists c hc' hca b hb]
    exact h.once c hc' b hb
  · obtain ⟨c, hc, hxc, hsize⟩ := h.live x hx
    refine ⟨c, List.mem_filter.2 ⟨hc, decide_eq_true ?_⟩, hxc, hsize⟩
    rintro rfl
    refine (h.free_not_live hc hxc).1 ?_ (List.mem_map_of_mem hx)
    change x.1 ∈ blocks _ (A.desc _) at hxc
    rw [hai] at hxc ⊢
    exact hfree x.1 hxc

theorem Kept.used (h : Kept L H pages A live) : ∀ x ∈ live, ∃ a ∈ pages, x.1 ∈ blocks a (A.desc a) ∧
    x.2 ≤ blockSize (A.desc a) ∧ x.1 ∉ A.lists (A.desc a) := fun x hx => by
  obtain ⟨a, ha, hxa, hsize⟩ := h.live x hx
  exact ⟨a, ha, hxa, hsize, fun hfree => (h.free_not_live ha hxa).1 hfree (List.mem_map_of_mem hx)⟩

theorem mem_pointers_without {b : ℕ} : b ∈ pointers (without p live) ↔ b ∈ pointers live ∧ b ≠ p := by
  unfold pointers without
  constructor
  · intro h
    obtain ⟨x, hx, rfl⟩ := List.mem_map.1 h
    rw [List.mem_filter, decide_eq_true_iff] at hx
    exact ⟨List.mem_map_of_mem hx.1, hx.2⟩
  · rintro ⟨h, hne⟩
    obtain ⟨x, hx, rfl⟩ := List.mem_map.1 h
    exact List.mem_map_of_mem (List.mem_filter.2 ⟨hx, decide_eq_true hne⟩)

theorem count_without {b : ℕ} (hne : b ≠ p) : (pointers (without p live)).count b = (pointers live).count b := by
  unfold pointers without
  induction live with
  | nil => rfl
  | cons x live ih =>
    by_cases hx : x.1 = p
    · rw [List.filter_cons_of_neg (by simpa using hx), ih, List.map_cons, List.count_cons_of_ne (by
        rw [hx]
        exact hne.symm)]
    · rw [List.filter_cons_of_pos (by simpa using hx), List.map_cons, List.map_cons, List.count_cons,
        List.count_cons, ih]

/-- The state after a block has been put on the free list, and counted. -/
theorem Kept.put (h : Kept L H pages A live) (ha : a ∈ pages) (hai : A.desc a = i) (hp : p ∈ blocks a i)
    (hlive : p ∈ pointers live) (hshape : Shape L m pages (A.setList i (p :: A.lists i)))
    (hcnt : ∀ c ∈ pages, fieldAt m c 8 = if c = a then A.freeOf a + 1 else fieldAt H.mem c 8) :
    Kept L { H with mem := m } pages (A.setList i (p :: A.lists i)) (without p live) := by
  subst hai
  have hnot : p ∉ A.lists (A.desc a) := fun hfree => (h.free_not_live ha hp).1 hfree hlive
  have hfreeOf : ∀ c ∈ pages, (A.setList (A.desc a) (p :: A.lists (A.desc a))).freeOf c =
      A.freeOf c + if c = a then 1 else 0 := fun c hc => by
    rw [freeOf_setList_cons h.shape.isPage ha hp hnot hc, setList_lists]
  refine ⟨h.descCnt, h.bitCnt, h.nodup, h.marked, hshape, fun c hc => ?_, fun c hc d hd => ?_, fun x hx => ?_⟩
  · rw [hfreeOf c hc]
    refine (hcnt c hc).trans ?_
    by_cases hca : c = a
    · subst hca
      rw [if_pos rfl, if_pos rfl]
    · rw [if_neg hca, if_neg hca]
      exact h.freeCnt c hc
  · have hone := h.once c hc d hd
    change _ + ((A.setList _ _).lists (A.desc c)).count d = 1
    by_cases hdp : d = p
    · subst hdp
      have hca : c = a := by
        rw [← h.pgRoundDown hc hd]
        exact h.pgRoundDown ha hp
      subst hca
      rw [lists_setList_self, List.count_cons_self, List.count_eq_zero_of_not_mem hnot,
        List.count_eq_zero_of_not_mem fun hmem => (mem_pointers_without.1 hmem).2 rfl]
    · rw [count_without hdp]
      by_cases hdesc : A.desc c = A.desc a
      · rw [hdesc] at hone ⊢
        rw [lists_setList_self, List.count_cons_of_ne (Ne.symm hdp)]
        exact hone
      · rw [lists_setList_of_ne _ _ hdesc]
        exact hone
  · exact h.live x (List.mem_of_mem_filter hx)

/-- **A live block is freed**: it is on the free list again, and counted; an arena without live
blocks goes back. -/
theorem Kept.free (h : Kept L H pages A live) (ha : L.page k ∈ pages) (hai : A.desc (L.page k) = i)
    (hp : p ∈ blocks (L.page k) i) (hlive : p ∈ pointers live) :
    Returns (free L p) H fun _ H' => ∃ A', A'.desc = A.desc ∧
      ((H'.kernelMap = H.kernelMap ∧ A'.freeOf (L.page k) < blocksPerArena i ∧
          Kept L H' pages A' (without p live)) ∨
        (H'.kernelMap = (H.mark k false).kernelMap ∧
          (∀ b ∈ blocks (L.page k) i, b ∉ pointers (without p live)) ∧
          Kept L H' (pages.filter fun c => decide (c ≠ L.page k)) A' (without p live))) := by
  have hi : i < 7 := hai ▸ (h.shape.page _ ha).2
  have hisPage := h.shape.isPage _ ha
  have hpageBounds := hisPage.bounds
  have hdescBounds := L.desc_bounds hi
  have hblock := h.shape.block_inside ha hp
  have hnot : p ∉ A.lists i := hai ▸ fun hfree => (h.free_not_live ha (hai.symm ▸ hp)).1 hfree hlive
  have hpageNe : L.page k ≠ 0 := by omega
  have hdescNe : L.desc i ≠ 0 := by omega
  have hblockBounds := bounds_of_mem_blocks hp
  set A' := A.setList i (p :: A.lists i) with hA'
  have hfreeOf : A'.freeOf (L.page k) = A.freeOf (L.page k) + 1 := by
    subst hai
    rw [hA', freeOf_setList_cons h.shape.isPage ha hp hnot ha, setList_lists, if_pos rfl]
  have hle := freeOf_le A' (L.page k)
  have hlen := blocksPerArena_lt i
  change _ ≤ blocksPerArena (A.desc (L.page k)) at hle
  rw [hai] at hle
  -- `memset`
  set m₁ := store H.mem p (List.replicate (blockSize i) 0xcc) with hm₁
  have hsame : ∀ q, q < p ∨ p + blockSize i ≤ q → m₁ q = H.mem q := fun q hq => by
    rcases hq with hq | hq
    · exact store_of_lt hq
    · exact store_of_ge (by rwa [List.length_replicate])
  obtain ⟨hshape₁, hcnt₁⟩ : Shape L m₁ pages A ∧ SameCnt pages H.mem m₁ := by
    refine h.shape.inside (fun x hx => ?_) (fun q hlo hhi => hsame q (.inl (by omega)))
      fun c hc q hlo hhi hq => hsame q (hq (p, blockSize i) (List.mem_singleton_self _))
    rw [List.mem_singleton.1 hx]
    exact ⟨_, ha, hai.symm ▸ hp, hai.symm ▸ Nat.le_refl _, hai.symm ▸ hnot⟩
  have hpush := hshape₁.push ha (hai.symm ▸ hp) (hai.symm ▸ hnot)
  rw [hai] at hpush
  unfold Threads.free
  rw [if_neg (Nat.ne_of_gt hblock.1)]
  refine (h.shape.blockToArena_returns ha (hai.symm ▸ hp)).seq ?_
  rintro _ H' ⟨rfl, hH⟩
  rw [hH, returns_onMem_readField hpageNe, (h.shape.header _ ha).2, hai, if_neg hdescNe,
    returns_onMem_readField hdescNe, (h.shape.descs i hi).1]
  unfold memset
  rw [returns_modify_bind]
  refine Returns.seq (Returns.onMem (H := { H with mem := m₁ }) hpush) ?_
  rintro _ _ ⟨m₂, rfl, hshape₂, hcnt₂⟩
  have hcnt : fieldAt m₂ (L.page k) 8 = A.freeOf (L.page k) :=
    (hcnt₂ _ ha).trans ((hcnt₁ _ ha).trans (h.freeCnt _ ha))
  have hsum : (A.freeOf (L.page k) + 1) % 2 ^ 32 = A.freeOf (L.page k) + 1 := Nat.mod_eq_of_lt (by omega)
  set m₃ := setFieldAt m₂ (L.page k) 8 (A.freeOf (L.page k) + 1) with hm₃
  have hshape₃ : Shape L m₃ pages A' := hshape₂.setCnt ha _
  have hkept : Kept L { H with mem := m₃ } pages A' (without p live) :=
    h.put ha hai hp hlive hshape₃ fun c hc => by
      rw [hm₃, hshape₂.cnt_setCnt ha hc (by omega), hcnt₂ c hc, hcnt₁ c hc]
  rw [returns_onMem_readField hpageNe, hcnt, hsum, returns_onMem_writeField hpageNe,
    returns_onMem_readField hdescNe]
  change Returns (if fieldAt m₃ (L.desc i) 4 ≤ _ then freeArena L _ _ (fieldAt m₃ (L.desc i) 4) else _)
    { H with mem := m₃ } _
  rw [(hshape₃.descs i hi).2, ← hfreeOf]
  split
  · rename_i hfull
    have hfull' : A'.freeOf (L.page k) = blocksPerArena i := Nat.le_antisymm hle hfull
    rw [hfull']
    refine (hkept.dropArena ha hai hfull').mono fun _ H' ⟨hmap, A'', hkept', hdesc⟩ => ?_
    refine ⟨A'', hdesc, .inr ⟨hmap, fun b hb => ?_, hkept'⟩⟩
    unfold Arenas.freeOf at hfull'
    change (blocks _ (A.desc _)).countP _ = _ at hfull'
    rw [hai, ← length_blocks (L.page k) i, List.countP_eq_length] at hfull'
    refine (hkept.free_not_live ha ?_).1 ?_
    · exact hai.symm ▸ hb
    · have hmem := of_decide_eq_true (hfull' b hb)
      change b ∈ A'.lists (A.desc (L.page k)) at hmem
      exact hmem
  · rename_i hfull
    exact returns_pure.2 ⟨A', rfl, .inl ⟨rfl, Nat.lt_of_not_le hfull, hkept⟩⟩

end Kept

/-! ### The arenas after a call -/

section After

variable {L : Layout} {H H' : KernelHeap} {pages : List ℕ} {k : ℕ}

theorem taken_eq_nil (h : ∀ k < L.kernelPages, H'.kernelMap.bits k = true → H.kernelMap.bits k = true) :
    L.taken H H' = [] := by
  unfold Layout.taken
  rw [List.map_eq_nil_iff, List.filter_eq_nil_iff]
  intro k hk hboth
  obtain ⟨hfree, hused⟩ := Bool.and_eq_true_iff.1 hboth
  rw [h k (List.mem_range.1 hk) hused] at hfree
  cases hfree

theorem arenasAfter_same (hmap : H'.kernelMap = H.kernelMap) (hmarked : ∀ a ∈ pages, L.marked H a = true) :
    L.arenasAfter H H' pages = pages := by
  unfold Layout.arenasAfter
  rw [taken_eq_nil fun k _ hk => hmap ▸ hk, List.nil_append]
  refine List.filter_eq_self.2 fun a ha => ?_
  unfold Layout.marked
  rw [hmap]
  exact hmarked a ha

theorem marked_of_mark {used : Bool} {a : ℕ} (hmap : H'.kernelMap = (H.mark k used).kernelMap) (ha : L.IsPage a) :
    L.marked H' a = if a = L.page k then used else L.marked H a := by
  obtain ⟨j, -, rfl⟩ := ha
  have hmark := marked_mark L H k j used
  unfold Layout.marked at hmark ⊢
  rw [hmap, hmark]
  by_cases hjk : j = k
  · rw [if_pos hjk, if_pos (congrArg L.page hjk)]
  · rw [if_neg hjk, if_neg fun heq => hjk (page_inj heq)]

/-- The page that was taken is a new arena. -/
theorem arenasAfter_taken (hk : k < L.kernelPages) (hfree : H.kernelMap.bits k = false)
    (hmap : H'.kernelMap = (H.mark k true).kernelMap) (hpages : ∀ a ∈ pages, L.IsPage a)
    (hmarked : ∀ a ∈ pages, L.marked H a = true) : L.arenasAfter H H' pages = L.page k :: pages := by
  have htaken : L.taken H H' = [L.page k] := by
    have hfilter : ((List.range L.kernelPages).filter fun j => !H.kernelMap.bits j && H'.kernelMap.bits j) =
        (List.range L.kernelPages).filter (· == k) := by
      refine List.filter_congr fun j _ => ?_
      rw [hmap]
      change (!H.kernelMap.bits j && (H.kernelMap.setMultiple k 1 true).bits j) = _
      rw [Filesys.Bitmap.bits_setMultiple_one]
      by_cases hjk : j = k
      · subst hjk
        simp [hfree]
      · simp [hjk]
    unfold Layout.taken
    rw [hfilter, List.filter_beq, List.count_eq_one_of_mem List.nodup_range (List.mem_range.2 hk)]
    rfl
  unfold Layout.arenasAfter
  rw [htaken]
  refine congrArg (L.page k :: ·) (List.filter_eq_self.2 fun a ha => ?_)
  rw [marked_of_mark hmap (hpages a ha)]
  split
  · rfl
  · exact hmarked a ha

/-- The page given back is no arena any more. -/
theorem arenasAfter_back (hmap : H'.kernelMap = (H.mark k false).kernelMap) (hpages : ∀ a ∈ pages, L.IsPage a)
    (hmarked : ∀ a ∈ pages, L.marked H a = true) :
    L.arenasAfter H H' pages = pages.filter fun c => decide (c ≠ L.page k) := by
  have hbits : ∀ j, H'.kernelMap.bits j = true → H.kernelMap.bits j = true := fun j hj => by
    rw [hmap] at hj
    change (H.kernelMap.setMultiple k 1 false).bits j = true at hj
    rw [Filesys.Bitmap.bits_setMultiple_one] at hj
    split at hj
    · cases hj
    · exact hj
  unfold Layout.arenasAfter
  rw [taken_eq_nil fun j _ => hbits j, List.nil_append]
  refine List.filter_congr fun a ha => ?_
  rw [marked_of_mark hmap (hpages a ha), hmarked a ha]
  by_cases hak : a = L.page k
  · rw [if_pos hak, decide_eq_false (not_not_intro hak)]
  · rw [if_neg hak, decide_eq_true hak]

end After

/-! ### The calls -/

section Calls

variable {L : Layout} {H H' : KernelHeap} {R : HeapRun} {pages : List ℕ} {A : Arenas} {live : List (ℕ × ℕ)}
  {p size : ℕ}

/-- Live blocks have no byte in common. -/
theorem Kept.apart (h : Kept L H pages A live) : live.Pairwise fun x y =>
    x.1 + blockSize (A.desc (Threads.pgRoundDown x.1)) ≤ y.1 ∨
      y.1 + blockSize (A.desc (Threads.pgRoundDown y.1)) ≤ x.1 := by
  have hnodup : (pointers live).Nodup := List.nodup_iff_count_le_one.2 fun b => by
    by_cases hb : b ∈ pointers live
    · obtain ⟨x, hx, rfl⟩ := List.mem_map.1 hb
      obtain ⟨a, ha, hxa, -⟩ := h.live x hx
      have hone := h.once a ha x.1 hxa
      omega
    · rw [List.count_eq_zero_of_not_mem hb]
      exact Nat.zero_le 1
  refine (List.pairwise_map.1 hnodup).imp_of_mem fun {x y} hx hy hne => ?_
  obtain ⟨a, ha, hxa, -⟩ := h.live x hx
  obtain ⟨c, hc, hyc, -⟩ := h.live y hy
  rw [h.pgRoundDown ha hxa, h.pgRoundDown hc hyc]
  exact blocks_apart_pages (h.shape.isPage a ha).pgOfs (h.shape.isPage c hc).pgOfs hxa hyc
    (fun heq => congrArg A.desc heq) hne

theorem Kept.exact (h : Kept L H pages A live)
    (hbusy : ∀ a ∈ pages, ∃ b ∈ blocks a (A.desc a), b ∈ pointers live) :
    (HeapRun.mk H live pages).Exact L A :=
  ⟨h, hbusy, h.apart⟩

theorem Kept.zero_not_live (h : Kept L H pages A live) : 0 ∉ pointers live := fun hmem => by
  obtain ⟨x, hx, hx0⟩ := List.mem_map.1 hmem
  obtain ⟨a, ha, hxa, -⟩ := h.live x hx
  exact Nat.ne_of_gt (h.shape.block_inside ha hxa).1 hx0

/-- What `malloc` is to leave. -/
def MallocLeaves (L : Layout) (R : HeapRun) (size p : ℕ) (H' : KernelHeap) : Prop :=
  (∀ a ∈ R.pages, L.marked H' a = true) ∧ p ∉ pointers R.live ∧
    (p = 0 → size = 0 ∨ ∀ k < L.kernelPages, R.heap.kernelMap.bits k = true) ∧
    ∃ A', (HeapRun.mk H' (given p size R.live) (L.arenasAfter R.heap H' R.pages)).Exact L A'

/-- **The block that is taken**, whether the list had one or has got those of a new arena. -/
theorem Kept.takeBlock_leaves {a b i : ℕ} {l : List ℕ} (h : Kept L H' pages A R.live) (ha : a ∈ pages)
    (hai : A.desc a = i) (hb : b ∈ blocks a i) (hl : A.lists i = b :: l) (hfits : size ≤ blockSize i)
    (hbusy : ∀ c ∈ pages, c = a ∨ ∃ d ∈ blocks c (A.desc c), d ∈ pointers R.live)
    (hmarked : ∀ c ∈ R.pages, L.marked H' c = true) (hafter : L.arenasAfter R.heap H' R.pages = pages) :
    Returns (takeBlock (L.desc i)) H' (MallocLeaves L R size) := by
  refine (h.take ha hai hb hl hfits).mono ?_
  rintro _ H'' ⟨rfl, hnew, hmap, hkept⟩
  have hpos := (h.shape.block_inside ha hb).1
  have hafter' : L.arenasAfter R.heap H'' R.pages = pages := by
    rw [← hafter]
    unfold Layout.arenasAfter Layout.taken Layout.marked
    rw [hmap]
  refine ⟨fun c hc => ?_, hnew, fun h0 => absurd h0 (Nat.ne_of_gt hpos), A.setList i l, ?_⟩
  · unfold Layout.marked
    rw [hmap]
    exact hmarked c hc
  · unfold given
    rw [if_neg (Nat.ne_of_gt hpos), hafter']
    refine hkept.exact fun c hc => ?_
    rcases hbusy c hc with rfl | ⟨d, hd, hlive⟩
    · exact ⟨_, hai.symm ▸ hb, List.mem_cons_self⟩
    · exact ⟨d, hd, List.mem_cons_of_mem _ hlive⟩

/-- A page is marked for a new arena. -/
theorem Kept.mark {k : ℕ} (h : Kept L H pages A live) : Kept L (H.mark k true) pages A live where
  descCnt := h.descCnt
  bitCnt := h.bitCnt
  nodup := h.nodup
  marked a ha := by
    rw [marked_of_mark (H := H) (k := k) rfl (h.shape.isPage a ha)]
    split
    · rfl
    · exact h.marked a ha
  shape := h.shape
  freeCnt := h.freeCnt
  once := h.once
  live := h.live

theorem exists_block {a i : ℕ} (hi : i < 7) : ∃ b l, blocks a i = b :: l := by
  refine List.exists_cons_of_ne_nil (List.ne_nil_of_length_pos ?_)
  rw [length_blocks]
  exact Nat.div_pos (Nat.le_trans (blockSize_le hi) (by decide)) (blockSize_pos i)

/-- **What `malloc` leaves.** -/
theorem malloc_leaves (h : R.Exact L A) (hsize : size ≤ 1024) :
    Returns (malloc L size) R.heap (MallocLeaves L R size) := by
  obtain ⟨H, live, pages⟩ := R
  obtain ⟨hkept, hbusy, happart⟩ := h
  dsimp only at hkept hbusy
  have hsame : L.arenasAfter H H pages = pages := arenasAfter_same rfl hkept.marked
  have hexact := hkept.exact hbusy
  unfold malloc
  by_cases hzero : size = 0
  · rw [if_pos hzero]
    exact returns_pure.2 ⟨hkept.marked, hkept.zero_not_live, fun _ => .inl hzero, A, hsame.symm ▸ hexact⟩
  rw [if_neg hzero, returns_get_bind]
  dsimp only
  rw [hkept.descCnt]
  have hfirst : L.desc 0 = L.descs := rfl
  refine (hfirst ▸ findDesc_returns (n := 6) hkept.shape rfl hsize).seq ?_
  rintro d H' ⟨⟨i, hi, rfl, hfits⟩, hH'⟩
  rw [hH', if_neg (by unfold Layout.desc sizeofDesc; omega)]
  refine (Returns.onMem (listEmpty_returns (hkept.shape.list i hi))).seq ?_
  rintro _ _ ⟨m, rfl, rfl, rfl⟩
  cases hlist : A.lists i with
  | cons b l =>
    obtain ⟨a, ha, hai, hb⟩ := hkept.shape.listed i hi b (hlist ▸ List.mem_cons_self)
    rw [if_neg (by simp)]
    exact hkept.takeBlock_leaves ha hai hb hlist hfits (fun c hc => .inr (hbusy c hc)) hkept.marked hsame
  | nil =>
    rw [if_pos (by simp)]
    refine pallocGetPage_returns.seq ?_
    rintro a H'' (⟨rfl, rfl, hfull⟩ | ⟨k, hk, hfree, rfl, rfl⟩)
    · rw [if_pos rfl]
      refine returns_pure.2 ⟨hkept.marked, hkept.zero_not_live, fun _ => .inr ?_, A, hsame.symm ▸ hexact⟩
      rw [← hkept.bitCnt]
      exact hfull
    · have hk' : k < L.kernelPages := hkept.bitCnt ▸ hk
      have hpage : L.IsPage (L.page k) := ⟨k, hk', rfl⟩
      have hpos := hpage.bounds
      have hnew : L.page k ∉ pages := fun hmem => by
        have hmark := hkept.marked _ hmem
        rw [marked_page] at hmark
        exact Bool.false_ne_true (hfree.symm.trans hmark)
      have hne : ∀ c ∈ pages, c ≠ L.page k := fun c hc heq => hnew (heq ▸ hc)
      have hself : L.marked (H.mark k true) (L.page k) = true := by
        rw [marked_of_mark (H := H) (k := k) rfl hpage, if_pos rfl]
      have hafter : L.arenasAfter H (H.mark k true) pages = L.page k :: pages :=
        arenasAfter_taken hk' hfree rfl hkept.shape.isPage hkept.marked
      obtain ⟨b, l, hbl⟩ := exists_block (a := L.page k) hi
      have hdesc := L.descs_pos
      rw [if_neg (by omega)]
      refine (hkept.mark.newArena hpage hnew hi hlist hself).seq ?_
      rintro _ H₃ ⟨hmap, hkept₃⟩
      refine hkept₃.takeBlock_leaves (R := ⟨H, live, pages⟩) List.mem_cons_self (Function.update_self ..)
        (hbl ▸ List.mem_cons_self) ((lists_setList_self ..).trans hbl) hfits (fun c hc => ?_) (fun c hc => ?_) ?_
      · rcases List.mem_cons.1 hc with rfl | hc
        · exact .inl rfl
        · have hdescs : ((A.addPage (L.page k) i).setList i (blocks (L.page k) i)).desc c = A.desc c :=
            Function.update_of_ne (hne c hc) ..
          rw [hdescs]
          exact .inr (hbusy c hc)
      · unfold Layout.marked
        rw [hmap]
        exact hkept.mark.marked c hc
      · unfold Layout.arenasAfter Layout.taken Layout.marked at hafter ⊢
        rw [hmap]
        exact hafter

/-- **What `free` leaves.** -/
theorem free_leaves (h : R.Exact L A) (hp : p ∈ pointers R.live) : Returns (free L p) R.heap fun _ H' =>
    (∀ a ∈ R.pages, L.marked H' a = false ↔
      pgRoundDown p = a ∧ ∀ x ∈ R.live, x.1 ≠ p → pgRoundDown x.1 ≠ a) ∧
    ∃ A', (HeapRun.mk H' (without p R.live) (L.arenasAfter R.heap H' R.pages)).Exact L A' := by
  obtain ⟨H, live, pages⟩ := R
  obtain ⟨hkept, hbusy, happart⟩ := h
  dsimp only at hkept hbusy hp
  obtain ⟨x, hx, rfl⟩ := List.mem_map.1 hp
  obtain ⟨a, ha, hxa, -⟩ := hkept.live x hx
  obtain ⟨k, hk, rfl⟩ := hkept.shape.isPage a ha
  have hround := hkept.pgRoundDown ha hxa
  -- the other arenas have a live block as before
  have hbusy' : ∀ c ∈ pages, c ≠ L.page k → ∃ b ∈ blocks c (A.desc c), b ∈ pointers (without x.1 live) :=
    fun c hc hck => by
      obtain ⟨b, hb, hlive⟩ := hbusy c hc
      refine ⟨b, hb, mem_pointers_without.2 ⟨hlive, ?_⟩⟩
      rintro rfl
      exact hck ((hkept.pgRoundDown hc hb).symm.trans hround)
  refine (hkept.free ha rfl hxa hp).mono ?_
  rintro _ H' ⟨A', hdesc, ⟨hmap, hsome, hkept'⟩ | ⟨hmap, hnone, hkept'⟩⟩
  · have hbusyA : ∃ b ∈ blocks (L.page k) (A.desc (L.page k)), b ∈ pointers (without x.1 live) := by
      by_contra hnot
      refine Nat.ne_of_lt hsome ?_
      unfold Arenas.freeOf
      rw [hdesc, ← length_blocks (L.page k), List.countP_eq_length]
      intro b hb
      refine decide_eq_true ?_
      rw [← hdesc] at hb ⊢
      exact (hkept'.free_not_live ha hb).2 fun hlive => hnot ⟨b, hdesc ▸ hb, hlive⟩
    refine ⟨fun c hc => iff_of_false ?_ ?_, A', ?_⟩
    · have hmarked := hkept'.marked c hc
      rw [hmarked]
      exact nofun
    · rintro ⟨hc', hall⟩
      obtain ⟨b, hb, hlive⟩ := hbusyA
      obtain ⟨hlive, hne⟩ := mem_pointers_without.1 hlive
      obtain ⟨y, hy, rfl⟩ := List.mem_map.1 hlive
      exact hall y hy hne ((hkept.pgRoundDown ha hb).trans (hround.symm.trans hc'))
    · dsimp only
      rw [arenasAfter_same hmap hkept.marked]
      refine hkept'.exact fun c hc => ?_
      rw [hdesc]
      by_cases hck : c = L.page k
      · exact hck ▸ hbusyA
      · exact hbusy' c hc hck
  · refine ⟨fun c hc => ?_, A', ?_⟩
    · rw [marked_of_mark hmap (hkept.shape.isPage c hc)]
      by_cases hck : c = L.page k
      · subst hck
        rw [if_pos rfl]
        refine iff_of_true rfl ⟨hround, fun y hy hne hround' => ?_⟩
        obtain ⟨d, hd, hyd, -⟩ := hkept.live y hy
        obtain rfl : d = L.page k := (hkept.pgRoundDown hd hyd).symm.trans hround'
        exact hnone y.1 hyd (mem_pointers_without.2 ⟨List.mem_map_of_mem hy, hne⟩)
      · rw [if_neg hck, hkept.marked c hc]
        exact iff_of_false nofun fun hc' => hck (hc'.1.symm.trans hround)
    · dsimp only
      rw [arenasAfter_back hmap hkept.shape.isPage hkept.marked]
      refine hkept'.exact fun c hc => ?_
      rw [List.mem_filter, decide_eq_true_iff] at hc
      rw [hdesc]
      exact hbusy' c hc.1 hc.2

/-- Other code leaves the arenas exact. -/
theorem others_exact (h : R.Exact L A) (ho : Others L R H') : (HeapRun.mk H' R.live R.pages).Exact L A := by
  have hkept := h.kept
  have hbelow : L.descs + 392 ≤ L.descs + 10 * sizeofDesc := by
    unfold sizeofDesc
    omega
  obtain ⟨hshape, hcnt⟩ := hkept.shape.inside hkept.used
    (fun q hlo hhi => ho.descs q hlo (Nat.lt_of_lt_of_le hhi hbelow)) ho.arenas
  refine Kept.exact ⟨ho.descCnt.trans hkept.descCnt, ho.bitCnt.trans hkept.bitCnt, hkept.nodup,
    fun a ha => (ho.marks a ha).trans (hkept.marked a ha), hshape,
    fun a ha => (hcnt a ha).trans (hkept.freeCnt a ha), hkept.once, hkept.live⟩ h.busy

/-- A step keeps the arenas exact. -/
theorem HeapStep.exact {act : HeapAct} {R' : HeapRun} (h : ∃ A, R.Exact L A) (hstep : HeapStep L R act R') :
    ∃ A, R'.Exact L A := by
  obtain ⟨A, hA⟩ := h
  cases hstep with
  | malloc hsize hrun => exact ((malloc_leaves hA hsize).of_run hrun).2.2.2
  | free hp hrun => exact ((free_leaves hA hp).of_run hrun).2
  | others ho => exact ⟨A, others_exact hA ho⟩

end Calls

/-- `malloc_init` leaves exact arenas, as there are none. -/
theorem mallocInit_exact {L : Layout} {H : KernelHeap} (hcnt : H.descCnt = 0)
    (hmap : H.kernelMap.bitCnt = L.kernelPages) : Returns (mallocInit L) H fun _ H' =>
      H'.kernelMap = H.kernelMap ∧ ∃ A, (HeapRun.mk H' [] []).Exact L A := by
  refine (mallocInit_returns hcnt).mono fun _ H' ⟨hshape, hH'⟩ => ?_
  rw [hH'] at hshape ⊢
  exact ⟨rfl, _, Kept.exact ⟨rfl, hmap, List.nodup_nil, nofun, hshape, nofun, nofun, nofun⟩ nofun⟩

/-- In every state that is reached the arenas are exact. -/
theorem leads_exact {L : Layout} {R R' : HeapRun} (hstart : ∃ A, R.Exact L A)
    (h : Leads (HeapStep L) (fun _ _ => True) R R') : ∃ A, R'.Exact L A :=
  h.inv (fun hI _ hstep => HeapStep.exact hI hstep) hstart

/-- **The kernel's malloc.**  `malloc_init` returns, and in every state that any calls with sizes up
to 1024 and frees of live blocks lead to, with whatever other code does in between, the arenas are
exact; every call returns; and a page goes back to `palloc` exactly with its last live block. -/
theorem malloc_arenas {L : Layout} {H : KernelHeap} (hcnt : H.descCnt = 0)
    (hmap : H.kernelMap.bitCnt = L.kernelPages) : Returns (mallocInit L) H fun _ H' =>
      ∀ R, Leads (HeapStep L) (fun _ _ => True) ⟨H', [], []⟩ R → R.Right L := by
  refine (mallocInit_exact hcnt hmap).mono fun _ H' ⟨_, hstart⟩ R hleads => ?_
  obtain ⟨A, hA⟩ := leads_exact hstart hleads
  exact ⟨⟨A, hA⟩, fun size hsize => (malloc_leaves hA hsize).mono fun _ _ h => ⟨h.1, h.2.1, h.2.2.1⟩,
    fun p hp => (free_leaves hA hp).mono fun _ _ h => h.1⟩

/-- A kernel with 366 pages in its pool. -/
def smallLayout : Layout where
  descs := 0xc0030000
  kernelBase := 0xc0101000
  kernelPages := 366
  userBase := 0xc026f000
  descs_pos := by decide
  below := by decide
  aligned := by decide
  fits := by decide

/-- Memory of zeros, and all pages free. -/
def freshHeap : KernelHeap where
  mem _ := 0
  kernelMap := ⟨366, fun _ => false, by decide⟩
  userMap := ⟨366, fun _ => false, by decide⟩
  descCnt := 0

/-- **A second block, a free and a reuse**: the block at `p` was live, and is free when the last one
is asked for. -/
theorem malloc_arenas_again : ∃ (R : HeapRun) (p q r : ℕ), p ≠ 0 ∧
    R.live = given r 100 (without p (given q 60 [(p, 100)])) ∧ R.Right smallLayout := by
  have hcnt : freshHeap.descCnt = 0 := rfl
  obtain ⟨_, H₀, hinit, -, hH₀⟩ := mallocInit_returns (L := smallLayout) hcnt
  have hright := (malloc_arenas (L := smallLayout) hcnt rfl).of_run hinit
  have hstart : Leads (HeapStep smallLayout) (fun _ _ => True) ⟨H₀, [], []⟩ ⟨H₀, [], []⟩ := .refl
  obtain ⟨p, H₁, hp, -, -, hnull⟩ := (hright _ hstart).malloc 100 (by decide)
  have hne : p ≠ 0 := by
    intro h0
    rcases hnull h0 with h0 | hfull
    · cases h0
    · have hused := hfull 0 (by decide)
      dsimp only at hused
      rw [hH₀] at hused
      cases hused
  have h₁ := hstart.next trivial (HeapStep.malloc (by decide) hp)
  obtain ⟨q, H₂, hq, -⟩ := (hright _ h₁).malloc 60 (by decide)
  have h₂ := h₁.next trivial (HeapStep.malloc (by decide) hq)
  have hlive : p ∈ pointers (given q 60 (given p 100 [])) := by
    rw [given, given, if_neg hne]
    split_ifs <;> simp [pointers]
  obtain ⟨_, H₃, hfree, -⟩ := (hright _ h₂).free p hlive
  have h₃ := h₂.next trivial (HeapStep.free hlive hfree)
  obtain ⟨r, H₄, hr, -⟩ := (hright _ h₃).malloc 100 (by decide)
  have h₄ := h₃.next trivial (HeapStep.malloc (by decide) hr)
  refine ⟨_, p, q, r, hne, ?_, hright _ h₄⟩
  dsimp only
  rw [show given p 100 [] = [(p, 100)] from if_neg hne]

end Threads
end CS162

/-
# Sizes that malloc and calloc cannot have

`projects1-3/src/threads/malloc.c`, lines 101-111 and 146-171: `calloc` and `block_size`, and the
arithmetic of `malloc` on large sizes.

The number of pages is rounded up after the header's size has been added, and either sum may wrap
around: sizes of the last 11 get a single page.  `calloc` looks whether the product is smaller than
a factor, which not every product that has wrapped around is.
-/

import CS162.Threads.MallocRuns

namespace CS162
namespace Threads

open CS162.Basis CS162.Lib

/-- `block_size`. -/
def blockSizeOf (block : ℕ) : OnHeap ℕ := do
  let a ← blockToArena block
  let d ← onMem (readField a 4)
  if d ≠ 0 then onMem (readField d 0)
  else do
    let cnt ← onMem (readField a 8)
    return (pgsize * cnt % 2 ^ 32 + 2 ^ 32 - pgOfs block) % 2 ^ 32

/-- `memset` with 0; a byte behind the last address is a fault. -/
def zeroBytes (p n : ℕ) : OnHeap Unit := if p + n ≤ 2 ^ 32 then memset p 0 n else halt

/-- `calloc`. -/
def calloc (L : Layout) (a b : ℕ) : OnHeap ℕ :=
  if a * b % 2 ^ 32 < a ∨ a * b % 2 ^ 32 < b then return 0 else do
  let p ← malloc L (a * b % 2 ^ 32)
  if p = 0 then return 0 else do
  zeroBytes p (a * b % 2 ^ 32)
  return p

/-- The pages that `malloc` asks for. -/
def pageCntOf (size : ℕ) : ℕ :=
  ((size + sizeofArena) % 2 ^ 32 + (pgsize - 1)) % 2 ^ 32 / pgsize

/-- The size with an arena's header, rounded up to pages, is more than there are addresses. -/
def Exceeds (n : ℕ) : Prop := 2 ^ 32 < (n + sizeofArena + (pgsize - 1)) / pgsize * pgsize

/-- The block has `n` bytes at least. -/
def Spans (p n : ℕ) (H : KernelHeap) : Prop := Returns (blockSizeOf p) H fun size _ => n ≤ size

/-- **A block for `n` bytes has that many**, and there is none where they do not fit. -/
def Suffices (n p : ℕ) (H : KernelHeap) : Prop := (p ≠ 0 → Spans p n H) ∧ (Exceeds n → p = 0)

/-- The descriptor for a size, from `i` on, and the end of the descriptors if it is too large. -/
def sizeClass (size : ℕ) : ℕ → ℕ → ℕ
  | 0, i => i
  | n + 1, i => if size ≤ blockSize i then i else sizeClass size n (i + 1)

/-- `malloc` has no block for the size: the descriptor's list is empty and no page is free, or there
are not as many pages in a row. -/
def NoRoom (L : Layout) (H : KernelHeap) (size : ℕ) : Prop :=
  size = 0 ∨
    (0 < size ∧ size ≤ 1024 ∧
      nextAt H.mem (freeList (L.desc (sizeClass size 7 0))) =
        listTail (freeList (L.desc (sizeClass size 7 0))) ∧ H.NoPages 1) ∨
    (1024 < size ∧ (pageCntOf size = 0 ∨ H.NoPages (pageCntOf size)))

/-! ### Arithmetic -/

section Arithmetic

variable {size n i : ℕ}

theorem exceeds_iff : Exceeds n ↔ 2 ^ 32 < n + sizeofArena := by
  unfold Exceeds sizeofArena pgsize
  omega

/-- The pages hold the size and a header, or there are none. -/
theorem pageCntOf_enough (h : size + sizeofArena ≤ 2 ^ 32) :
    pageCntOf size = 0 ∨ size + sizeofArena ≤ pgsize * pageCntOf size := by
  unfold pageCntOf sizeofArena pgsize at *
  omega

/-- **The last sizes get one page.** -/
theorem pageCntOf_wrapped (h : 2 ^ 32 < size + sizeofArena) (hsize : size < 2 ^ 32) :
    pageCntOf size = 1 := by
  unfold pageCntOf sizeofArena pgsize at *
  omega

/-- The class has blocks that are large enough; only large sizes have class 7. -/
theorem sizeClass_spec (size n i : ℕ) (hi : i + n = 7) :
    sizeClass size n i ≤ 7 ∧ (sizeClass size n i < 7 → size ≤ blockSize (sizeClass size n i)) ∧
      (size ≤ 1024 → 0 < n → sizeClass size n i < 7) ∧ (1024 < size → sizeClass size n i = 7) := by
  induction n generalizing i with
  | zero =>
    obtain rfl : i = 7 := hi
    exact ⟨Nat.le_refl 7, fun h => absurd h (Nat.lt_irrefl 7),
      fun _ h => absurd h (Nat.lt_irrefl 0), fun _ => rfl⟩
  | succ n ih =>
    obtain ⟨hle, hfits, hsmall, hlarge⟩ := ih (i + 1) (by omega)
    unfold sizeClass
    split_ifs with hsize
    · have hi7 : i < 7 := by omega
      refine ⟨hi7.le, fun _ => hsize, fun _ _ => hi7, fun hbig => ?_⟩
      have := blockSize_le hi7
      omega
    · refine ⟨hle, hfits, fun hle' _ => ?_, hlarge⟩
      by_cases hn : n = 0
      · -- the last descriptor has blocks of 1024 bytes
        obtain rfl : i = 6 := by omega
        exact absurd hle' hsize
      · exact hsmall hle' (Nat.pos_of_ne_zero hn)

end Arithmetic

/-! ### The parts of `malloc` -/

section Parts

variable {L : Layout} {H H' : KernelHeap} {R : HeapRun} {pages : List ℕ} {A : Arenas}
  {live : List (ℕ × ℕ)} {a b i k n p size : ℕ} {l : List ℕ}

/-- A read that ends a program. -/
theorem returns_onMem_readField_last {off : ℕ} {Q : ℕ → KernelHeap → Prop} (hp : p ≠ 0) :
    Returns (onMem (readField p off)) H Q ↔ Q (fieldAt H.mem p off) H := by
  have hrun : (onMem (readField p off)).run H = some (fieldAt H.mem p off, H) := by
    unfold readField
    rw [if_neg hp]
    rfl
  exact ⟨fun h => h.of_run hrun, fun h => ⟨_, _, hrun, h⟩⟩

theorem findDesc_sizeClass (size n i : ℕ) (h : Shape L H.mem pages A) (hn : i + n = 7) :
    Returns (findDesc size n (L.desc i)) H fun d H' =>
      d = L.desc (sizeClass size n i) ∧ H' = H := by
  induction n generalizing i with
  | zero => exact returns_pure.2 ⟨rfl, rfl⟩
  | succ n ih =>
    have hi : i < 7 := by omega
    have hd0 : L.desc i ≠ 0 := Nat.ne_of_gt (L.desc_bounds hi).1
    unfold findDesc sizeClass
    rw [returns_onMem_readField hd0, (h.descs i hi).1]
    split_ifs
    · exact returns_pure.2 ⟨rfl, rfl⟩
    · exact ih (i + 1) (by omega)

/-- `list_empty` compares the first element with the tail. -/
theorem nextAt_eq_tail_iff {m : Memory} {list : ℕ} (h : IsList m list l) :
    nextAt m list = listTail list ↔ l = [] := by
  have hempty := listEmpty_returns h
  have hlist : list ≠ 0 := by
    rintro rfl
    obtain ⟨_, _, hrun, -⟩ := hempty
    cases hrun
  have hrun : (listEmpty list).run m = some (decide (nextAt m list = listTail list), m) := by
    unfold listEmpty listBegin listEnd readField listHead
    rw [if_neg hlist, if_neg hlist]
    rfl
  exact decide_eq_decide.1 (hempty.of_run hrun).1

/-- No page is free. -/
theorem noPages_one_iff : H.NoPages 1 ↔ ∀ k < H.kernelMap.bitCnt, H.kernelMap.bits k = true := by
  unfold KernelHeap.NoPages
  constructor
  · intro h k hk
    by_contra hfree
    refine h k ⟨hk, fun j hj hset => hfree ?_⟩
    obtain rfl : j = k := Nat.le_antisymm (Nat.le_of_lt_succ hj.2) hj.1
    exact hset
  · rintro h k ⟨hk, hfree⟩
    exact hfree k ⟨Nat.le_refl k, Nat.lt_succ_self k⟩ (h k hk)

/-- **When a small size finds no block**: the descriptor's list is empty and no page is free. -/
theorem malloc_small (h : R.Exact L A) (hpos : size ≠ 0) (hsize : size ≤ 1024) :
    Returns (malloc L size) R.heap fun p _ =>
      p = 0 ↔ A.lists (sizeClass size 7 0) = [] ∧ R.heap.NoPages 1 := by
  have hleaves := malloc_leaves h hsize
  obtain ⟨H, live, pages⟩ := R
  have hkept := h.kept
  dsimp only at hkept hleaves ⊢
  obtain ⟨-, hfits, hsmall, -⟩ := sizeClass_spec size 7 0 rfl
  have hi := hsmall hsize (by decide)
  by_cases hroom : A.lists (sizeClass size 7 0) = [] ∧ ¬H.NoPages 1
  · refine hleaves.mono fun p H' hp => ?_
    refine iff_of_false (fun hzero => hroom.2 ?_) fun hno => hroom.2 hno.2
    rw [noPages_one_iff, hkept.bitCnt]
    exact (hp.2.2.1 hzero).resolve_left hpos
  · have hfind := findDesc_sizeClass size 7 0 hkept.shape rfl
    rw [show L.desc 0 = L.descs from rfl] at hfind
    unfold malloc
    rw [if_neg hpos, returns_get_bind]
    dsimp only
    rw [hkept.descCnt]
    refine hfind.seq ?_
    rintro d H₁ ⟨rfl, hH₁⟩
    rw [hH₁]
    have hne : L.desc (sizeClass size 7 0) ≠ L.descs + sizeofDesc * 7 := by
      unfold Layout.desc sizeofDesc
      omega
    rw [if_neg hne]
    refine (Returns.onMem (listEmpty_returns (hkept.shape.list _ hi))).seq ?_
    rintro _ _ ⟨m, rfl, rfl, rfl⟩
    cases hlist : A.lists (sizeClass size 7 0) with
    | cons b l =>
      obtain ⟨a, ha, hai, hb⟩ := hkept.shape.listed _ hi b (hlist ▸ List.mem_cons_self)
      rw [if_neg (by simp)]
      refine (hkept.take ha hai hb hlist (hfits hi)).mono ?_
      rintro _ H' ⟨rfl, -⟩
      have hpos' := (hkept.shape.block_inside ha hb).1
      exact iff_of_false (Nat.ne_of_gt hpos') fun hno => nomatch hno.1
    | nil =>
      have hno : H.NoPages 1 := by
        by_contra hno
        exact hroom ⟨hlist, hno⟩
      rw [if_pos (by simp)]
      refine pallocGetPage_returns.seq ?_
      rintro a H'' (⟨rfl, -, -⟩ | ⟨k, hk, hfree, -⟩)
      · rw [if_pos rfl]
        exact returns_pure.2 (iff_of_true rfl ⟨rfl, hno⟩)
      · exact absurd (hfree.symm.trans (noPages_one_iff.1 hno k hk)) Bool.false_ne_true

/-! ### Blocks of many pages -/

/-- What is behind a block of `pageCnt` pages from the page `k` on. -/
structure LargeBlock (L : Layout) (H : KernelHeap) (k pageCnt p : ℕ) : Prop where
  ptr : p = L.page k + sizeofArena
  some : 0 < pageCnt
  inside : k + pageCnt ≤ L.kernelPages
  magic : fieldAt H.mem (L.page k) 0 = arenaMagic
  desc : fieldAt H.mem (L.page k) 4 = 0
  cnt : fieldAt H.mem (L.page k) 8 = pageCnt

/-- **A large size** gets pages of its own, or there are none. -/
theorem malloc_large (h : Kept L H pages A live) (hsize : 1024 < size) :
    Returns (malloc L size) H fun p H' =>
      (p = 0 ∧ H' = H ∧ (pageCntOf size = 0 ∨ H.NoPages (pageCntOf size))) ∨
      ∃ k, Fits H.kernelMap.Set H.kernelMap.bitCnt ⟨k, pageCntOf size⟩ ∧
        LargeBlock L H' k (pageCntOf size) p ∧
        H' = { H with mem := headed H.mem (L.page k) 0 (pageCntOf size),
                      kernelMap := H.kernelMap.setMultiple k (pageCntOf size) true } := by
  obtain ⟨-, -, -, hlarge⟩ := sizeClass_spec size 7 0 rfl
  have hfind := findDesc_sizeClass size 7 0 h.shape rfl
  rw [show L.desc 0 = L.descs from rfl, hlarge hsize] at hfind
  unfold malloc
  rw [if_neg (by omega), returns_get_bind]
  dsimp only
  rw [h.descCnt]
  refine hfind.seq ?_
  rintro d H₁ ⟨rfl, hH₁⟩
  rw [hH₁, if_pos (show L.desc 7 = L.descs + sizeofDesc * 7 from rfl)]
  change Returns (pallocGetMultiple L {} (pageCntOf size) >>= _) _ _
  by_cases hcnt : pageCntOf size = 0
  · rw [hcnt]
    exact returns_pure.2 (.inl ⟨rfl, rfl, .inl rfl⟩)
  refine (pallocGetMultiple_returns hcnt).seq ?_
  rintro a H' (⟨rfl, rfl, hno⟩ | ⟨k, hfits, rfl, rfl⟩)
  · rw [if_pos rfl]
    exact returns_pure.2 (.inl ⟨rfl, rfl, .inr hno⟩)
  · have hinside : k + pageCntOf size ≤ L.kernelPages := h.bitCnt ▸ hfits.1
    have hpage : L.IsPage (L.page k) := ⟨k, by omega, rfl⟩
    have ha0 : L.page k ≠ 0 := by
      have hdescs := L.descs_pos
      have hbounds := hpage.bounds
      omega
    have hlt : pageCntOf size < 2 ^ 32 := by
      have hfits := L.fits
      unfold pgsize at hfits
      omega
    rw [if_neg ha0, returns_onMem_writeField ha0, returns_onMem_writeField ha0,
      returns_onMem_writeField ha0]
    refine returns_pure.2 (.inr ⟨k, hfits, ?_, by rw [← h.descCnt]; rfl⟩)
    refine ⟨rfl, Nat.pos_of_ne_zero hcnt, hinside, ?_, ?_, ?_⟩
    · dsimp only
      rw [fieldAt_set_of_apart (by omega), fieldAt_set_of_apart (by omega),
        fieldAt_set_self (by decide)]
    · dsimp only
      rw [fieldAt_set_of_apart (by omega), fieldAt_set_self (by decide)]
    · exact fieldAt_set_self hlt

/-! ### What `block_size` says -/

/-- Whatever is written in its `n` bytes, `block_size` says `n` of the block. -/
def HasBytes (p n : ℕ) (H : KernelHeap) : Prop :=
  p + n ≤ 2 ^ 32 ∧ ∀ m : Memory, (∀ q, q < p ∨ p + n ≤ q → m q = H.mem q) →
    Returns (blockSizeOf p) { H with mem := m } fun size _ => size = n

/-- Of a block of an arena that is not on its free list it is the descriptor's size. -/
theorem Shape.hasBytes (h : Shape L H.mem pages A) (ha : a ∈ pages) (hb : b ∈ blocks a (A.desc a))
    (hused : b ∉ A.lists (A.desc a)) : HasBytes b (blockSize (A.desc a)) H := by
  have hbounds := bounds_of_mem_blocks hb
  have haBounds := (h.isPage a ha).bounds
  have hi := (h.page a ha).2
  unfold pgsize at hbounds
  refine ⟨by omega, fun m hm => ?_⟩
  have hblock : ∀ x ∈ [(b, blockSize (A.desc a))], ∃ c ∈ pages, x.1 ∈ blocks c (A.desc c) ∧
      x.2 ≤ blockSize (A.desc c) ∧ x.1 ∉ A.lists (A.desc c) := by
    intro x hx
    obtain rfl := List.mem_singleton.1 hx
    exact ⟨a, ha, hb, Nat.le_refl _, hused⟩
  have hshape : Shape L m pages A := (h.inside hblock (fun q _ hq => hm q (by omega))
    fun _ _ q _ _ hq => hm q (hq _ List.mem_cons_self)).1
  have ha0 : a ≠ 0 := by
    have hpos := L.descs_pos
    omega
  have hd0 : L.desc (A.desc a) ≠ 0 := Nat.ne_of_gt (L.desc_bounds hi).1
  unfold blockSizeOf
  refine (hshape.blockToArena_returns (H := { H with mem := m }) ha hb).seq ?_
  rintro _ H' ⟨rfl, hH'⟩
  rw [hH', returns_onMem_readField ha0, (hshape.header _ ha).2, if_pos hd0,
    returns_onMem_readField_last hd0]
  exact (hshape.descs _ hi).1

/-- Of a block of many pages it is those without the header. -/
theorem LargeBlock.hasBytes (h : LargeBlock L H k n p) :
    HasBytes p (pgsize * n - sizeofArena) H := by
  obtain ⟨rfl, hsome, hinside, hmagic, hdesc, hcnt⟩ := h
  have hps : pgsize = 4096 := rfl
  have hheaderSize : sizeofArena = 12 := rfl
  have hpage : L.IsPage (L.page k) := ⟨k, by omega, rfl⟩
  have hofs := hpage.pgOfs
  have hdescs := L.descs_pos
  have hbounds := hpage.bounds
  have ha0 : L.page k ≠ 0 := by omega
  have hfits := L.fits
  have hend : pgsize * (k + n) ≤ pgsize * L.kernelPages := Nat.mul_le_mul_left _ hinside
  have hlast : L.page k + pgsize * n ≤ 2 ^ 32 := by
    unfold Layout.page
    rw [Nat.mul_add] at hend
    omega
  have hround : pgRoundDown (L.page k + sizeofArena) = L.page k := by
    unfold pgOfs at hofs
    unfold pgRoundDown
    rw [hps] at *
    omega
  have hofs' : pgOfs (L.page k + sizeofArena) = sizeofArena := by
    unfold pgOfs at *
    rw [hps] at *
    omega
  rw [hps] at hlast ⊢
  refine ⟨by omega, fun m hm => ?_⟩
  have hheader : ∀ off, off + 4 ≤ 12 → fieldAt m (L.page k) off = fieldAt H.mem (L.page k) off :=
    fun off hoff => fieldAt_congr fun q hlo hhi => hm q (by omega)
  have harena : Returns (blockToArena (L.page k + sizeofArena)) { H with mem := m } fun a H' =>
      a = L.page k ∧ H' = { H with mem := m } := by
    unfold blockToArena
    rw [hround, if_neg ha0, returns_onMem_readField ha0, hheader 0 (by decide), hmagic,
      if_neg (not_not_intro rfl), returns_onMem_readField ha0, hheader 4 (by decide), hdesc,
      if_pos rfl, if_pos hofs']
    exact returns_pure.2 ⟨rfl, rfl⟩
  unfold blockSizeOf
  refine harena.seq ?_
  rintro _ H' ⟨rfl, hH'⟩
  rw [hH', returns_onMem_readField ha0, hheader 4 (by decide), hdesc, if_neg (not_not_intro rfl),
    returns_onMem_readField ha0, hheader 8 (by decide), hcnt, hofs']
  refine returns_pure.2 ?_
  rw [hps]
  omega

/-- A block has its bytes whether they are written or not. -/
theorem HasBytes.spans (h : HasBytes p n H) (hle : size ≤ n) (m : Memory)
    (hm : ∀ q, q < p ∨ p + n ≤ q → m q = H.mem q) : Spans p size { H with mem := m } :=
  (h.2 m hm).mono fun _ _ hn => hn.symm ▸ hle

/-- **What `malloc` gives.** -/
theorem malloc_gives (h : R.Exact L A) (hlt : size < 2 ^ 32) :
    Returns (malloc L size) R.heap fun p H' => (p = 0 ↔ NoRoom L R.heap size) ∧
      (p ≠ 0 → ∃ n, HasBytes p n H' ∧ (size + sizeofArena ≤ 2 ^ 32 → size ≤ n)) := by
  have hkept := h.kept
  by_cases hzero : size = 0
  · unfold malloc
    rw [if_pos hzero]
    exact returns_pure.2 ⟨iff_of_true rfl (.inl hzero), fun h => absurd rfl h⟩
  rcases Nat.lt_or_ge 1024 size with hlarge | hsmall
  · refine (malloc_large hkept hlarge).mono ?_
    rintro p H' (⟨rfl, -, hno⟩ | ⟨k, hfits, hblock, -⟩)
    · exact ⟨iff_of_true rfl (.inr (.inr ⟨hlarge, hno⟩)), fun h => absurd rfl h⟩
    · have hpos : p ≠ 0 := by
        rw [hblock.ptr]
        unfold sizeofArena
        omega
      refine ⟨iff_of_false hpos ?_, fun _ => ⟨_, hblock.hasBytes, fun hsize => ?_⟩⟩
      · rintro (h0 | ⟨-, hle, -⟩ | ⟨-, hcnt | hno⟩)
        · exact hzero h0
        · omega
        · exact Nat.ne_of_gt hblock.some hcnt
        · exact hno k hfits
      · have henough := (pageCntOf_enough hsize).resolve_left (Nat.ne_of_gt hblock.some)
        omega
  · obtain ⟨-, -, hclass, -⟩ := sizeClass_spec size 7 0 rfl
    have hi := hclass hsmall (by decide)
    have hempty : nextAt R.heap.mem (freeList (L.desc (sizeClass size 7 0))) =
        listTail (freeList (L.desc (sizeClass size 7 0))) ↔ A.lists (sizeClass size 7 0) = [] :=
      nextAt_eq_tail_iff (hkept.shape.list _ hi)
    refine ((malloc_small h hzero hsmall).and (malloc_leaves h hsmall)).mono ?_
    rintro p H' ⟨hnull, -, -, -, A', hexact⟩
    refine ⟨hnull.trans ⟨fun hno => ?_, ?_⟩, fun hp => ?_⟩
    · exact .inr (.inl ⟨Nat.pos_of_ne_zero hzero, hsmall, hempty.2 hno.1, hno.2⟩)
    · rintro (h0 | ⟨-, -, hlist, hno⟩ | ⟨hlt, -⟩)
      · exact absurd h0 hzero
      · exact ⟨hempty.1 hlist, hno⟩
      · omega
    · have hkept' := hexact.kept
      have hgiven : given p size R.live = (p, size) :: R.live := if_neg hp
      obtain ⟨a, ha, hpa, hfits, hused⟩ := hkept'.used (p, size) (hgiven ▸ List.mem_cons_self)
      exact ⟨_, hkept'.shape.hasBytes ha hpa hused, fun _ => hfits⟩

/-! ### When sizes are right -/

/-- **`malloc`** is right on a size that fits with its header, and where no page is free. -/
theorem malloc_suffices_iff (h : R.Exact L A) (hlt : size < 2 ^ 32) :
    Returns (malloc L size) R.heap (Suffices size) ↔
      size + sizeofArena ≤ 2 ^ 32 ∨ R.heap.NoPages 1 := by
  have hgives := malloc_gives h hlt
  constructor
  · intro hright
    by_contra hnot
    obtain ⟨hbig, hpage⟩ := not_or.1 hnot
    obtain ⟨p, H', hrun, hsuffices, hnull, -⟩ := hright.and hgives
    have hp := hsuffices.2 (exceeds_iff.2 (Nat.lt_of_not_le hbig))
    unfold sizeofArena at hbig
    rcases hnull.1 hp with h0 | ⟨-, hle, -⟩ | ⟨-, hno⟩
    · omega
    · omega
    · rw [pageCntOf_wrapped (Nat.lt_of_not_le hbig) hlt] at hno
      exact hpage (hno.resolve_left Nat.one_ne_zero)
  · intro hright
    refine hgives.mono fun p H' ⟨hnull, hgive⟩ => ?_
    by_cases hfits : size + sizeofArena ≤ 2 ^ 32
    · refine ⟨fun hp => ?_, fun hexceeds => absurd hfits (Nat.not_le.2 (exceeds_iff.1 hexceeds))⟩
      obtain ⟨n, hbytes, hn⟩ := hgive hp
      exact hbytes.spans (hn hfits) H'.mem fun _ _ => rfl
    · have hwrapped := pageCntOf_wrapped (Nat.lt_of_not_le hfits) hlt
      have hlarge : 1024 < size := by
        unfold sizeofArena at hfits
        omega
      have hno : R.heap.NoPages (pageCntOf size) := hwrapped.symm ▸ hright.resolve_left hfits
      have hp : p = 0 := hnull.2 (.inr (.inr ⟨hlarge, .inr hno⟩))
      exact ⟨fun hne => absurd hp hne, fun _ => hp⟩

/-- **`calloc`** is right on a product that fits with its header, on one that it sees wrap around,
and where `malloc` has no block for what is left of the product. -/
theorem calloc_suffices_iff (h : R.Exact L A) :
    Returns (calloc L a b) R.heap (Suffices (a * b)) ↔ a * b + sizeofArena ≤ 2 ^ 32 ∨
      (a * b % 2 ^ 32 < a ∨ a * b % 2 ^ 32 < b) ∨ NoRoom L R.heap (a * b % 2 ^ 32) := by
  have hgives := malloc_gives h (Nat.mod_lt (a * b) (Nat.two_pow_pos 32))
  unfold calloc
  by_cases hcaught : a * b % 2 ^ 32 < a ∨ a * b % 2 ^ 32 < b
  · rw [if_pos hcaught]
    exact iff_of_true (returns_pure.2 ⟨fun h => absurd rfl h, fun _ => rfl⟩) (.inr (.inl hcaught))
  rw [if_neg hcaught]
  constructor
  · intro hright
    by_contra hnot
    obtain ⟨hbig, hroom⟩ := not_or.1 hnot
    obtain ⟨p, H'', hrun, -, hexceeds⟩ := hright
    obtain ⟨q, H', hmalloc, hrest⟩ := run_bind_cases hrun
    have hq : q ≠ 0 := fun hq => hroom (.inr ((hgives.of_run hmalloc).1.1 hq))
    rw [if_neg hq] at hrest
    obtain ⟨_, _, -, hret⟩ := run_bind_cases hrest
    cases hret
    exact hq (hexceeds (exceeds_iff.2 (Nat.lt_of_not_le hbig)))
  · intro hright
    refine hgives.seq fun q H' ⟨hnull, hgive⟩ => ?_
    by_cases hq : q = 0
    · rw [if_pos hq]
      exact returns_pure.2 ⟨fun h => absurd rfl h, fun _ => rfl⟩
    · have hfits : a * b + sizeofArena ≤ 2 ^ 32 := by
        rcases hright with hfits | hcaught' | hroom
        · exact hfits
        · exact absurd hcaught' hcaught
        · exact absurd (hnull.2 hroom) hq
      have hexact : a * b % 2 ^ 32 = a * b := by
        unfold sizeofArena at hfits
        exact Nat.mod_eq_of_lt (by omega)
      rw [hexact] at hgive ⊢
      obtain ⟨n, hbytes, hn⟩ := hgive hq
      have hle := hn hfits
      have hend := hbytes.1
      rw [if_neg hq]
      unfold zeroBytes memset
      rw [if_pos (by omega), returns_modify_bind]
      refine returns_pure.2 ⟨fun _ => ?_, fun hexceeds => ?_⟩
      swap
      · exact absurd hfits (Nat.not_le.2 (exceeds_iff.1 hexceeds))
      refine hbytes.spans hle _ fun x hx => ?_
      rcases hx with hx | hx
      · exact store_of_lt hx
      · exact store_of_ge (by rw [List.length_replicate]; omega)

end Parts

/-- `malloc` of a `size_t`. -/
def HeapRun.MallocSuffices (L : Layout) (R : HeapRun) (size : UInt32) : Prop :=
  Returns (malloc L size.toNat) R.heap (Suffices size.toNat)

/-- `calloc` of two. -/
def HeapRun.CallocSuffices (L : Layout) (R : HeapRun) (a b : UInt32) : Prop :=
  Returns (calloc L a.toNat b.toNat) R.heap (Suffices (a.toNat * b.toNat))

/-- **When `malloc` and `calloc` give a block of the size asked for**, and none for a size that does
not fit, in every state that calls and other code lead to.  Taking a block of many pages is a step
of other code (`malloc_large_others`). -/
theorem malloc_sizes_iff {L : Layout} {H : KernelHeap} (hcnt : H.descCnt = 0)
    (hmap : H.kernelMap.bitCnt = L.kernelPages) : Returns (mallocInit L) H fun _ H' =>
      ∀ R, Leads (HeapStep L) (fun _ _ => True) ⟨H', [], []⟩ R →
        (∀ size, R.MallocSuffices L size ↔
          size.toNat + sizeofArena ≤ 2 ^ 32 ∨ R.heap.NoPages 1) ∧
        ∀ a b, R.CallocSuffices L a b ↔ a.toNat * b.toNat + sizeofArena ≤ 2 ^ 32 ∨
          (a * b < a ∨ a * b < b) ∨ NoRoom L R.heap (a * b).toNat := by
  refine (mallocInit_exact hcnt hmap).mono fun _ H' ⟨_, hstart⟩ R hleads => ?_
  obtain ⟨A, hA⟩ := leads_exact hstart hleads
  refine ⟨fun size => malloc_suffices_iff hA size.toNat_lt, fun a b => ?_⟩
  simp only [UInt32.lt_iff_toNat_lt, UInt32.toNat_mul]
  exact calloc_suffices_iff hA

/-- The first request of a kernel with a small pool. -/
theorem malloc_sizes_iff_small : Returns (mallocInit smallLayout) freshHeap fun _ H' =>
    (∀ size, (HeapRun.mk H' [] []).MallocSuffices smallLayout size ↔
      size.toNat + sizeofArena ≤ 2 ^ 32 ∨ H'.NoPages 1) ∧
    ∀ a b, (HeapRun.mk H' [] []).CallocSuffices smallLayout a b ↔
      a.toNat * b.toNat + sizeofArena ≤ 2 ^ 32 ∨ (a * b < a ∨ a * b < b) ∨
        NoRoom smallLayout H' (a * b).toNat :=
  (malloc_sizes_iff rfl rfl).mono fun _ _ h => h _ .refl

/-- A kernel of 366 free pages has them in a row. -/
theorem not_noPages {H : KernelHeap} (hmap : H.kernelMap = freshHeap.kernelMap) {cnt : ℕ}
    (hcnt : cnt ≤ 366) : ¬H.NoPages cnt := by
  intro hno
  refine hno 0 ⟨?_, fun j _ hset => ?_⟩
  · rw [hmap]
    exact (Nat.zero_add cnt).le.trans hcnt
  · rw [hmap] at hset
    cases hset

/-- The last size gets a page, and 65537 times 65537 bytes are 131073 of them. -/
theorem not_malloc_sizes : ∃ H', (mallocInit smallLayout).run freshHeap = some ((), H') ∧
    ¬(HeapRun.mk H' [] []).MallocSuffices smallLayout 0xffffffff ∧
      ¬(HeapRun.mk H' [] []).CallocSuffices smallLayout 0x10001 0x10001 := by
  obtain ⟨_, H', hinit, hmap, A, hA⟩ := mallocInit_exact (L := smallLayout) (H := freshHeap) rfl rfl
  refine ⟨H', hinit, fun h => ?_, fun h => ?_⟩
  · rcases (malloc_suffices_iff hA (by decide)).1 h with hfits | hno
    · exact absurd hfits (by decide)
    · exact not_noPages hmap (by decide) hno
  · rcases (calloc_suffices_iff hA).1 h with
      hfits | hcaught | hzero | ⟨-, hsmall, -⟩ | ⟨-, hcnt | hno⟩
    · exact absurd hfits (by decide)
    · exact absurd hcaught (by decide)
    · exact absurd hzero (by decide)
    · exact absurd hsmall (by decide)
    · exact absurd hcnt (by decide)
    · exact not_noPages hmap (by decide) hno

end Threads
end CS162

/-
# Arenas in memory

An arena is a page that a descriptor has cut into blocks (`blocks`).  `Shape` says what the memory
holds between two steps of `malloc` and `free`: the descriptors, the headers of the arenas, and for
each descriptor the list of its free blocks, which are blocks of its arenas.

Whatever leaves these alone keeps the shape (`Shape.congr`), and so do the list functions, on
blocks of a descriptor's own arenas (`Shape.push`, `Shape.pushBack`, `Shape.pop`, `Shape.drop`).
-/

import CS162.Threads.Malloc
import Mathlib.Data.List.Nodup

namespace CS162
namespace Threads

open CS162.Basis CS162.Lib

/-! ### Blocks of a page -/

/-- `block_size` of the descriptor `i`. -/
def blockSize (i : ℕ) : ℕ := 16 * 2 ^ i

/-- `blocks_per_arena` of the descriptor `i`. -/
def blocksPerArena (i : ℕ) : ℕ := (pgsize - sizeofArena) / blockSize i

/-- The blocks that the descriptor `i` cuts the page `a` into. -/
def blocks (a i : ℕ) : List ℕ :=
  (List.range (blocksPerArena i)).map fun idx => a + sizeofArena + idx * blockSize i

/-- The descriptor `i`. -/
def Layout.desc (L : Layout) (i : ℕ) : ℕ := L.descs + sizeofDesc * i

section Blocks

variable {a a' b c i j : ℕ}

theorem mem_blocks :
    b ∈ blocks a i ↔ ∃ idx < blocksPerArena i, b = a + sizeofArena + idx * blockSize i := by
  unfold blocks
  rw [List.mem_map]
  constructor
  · rintro ⟨idx, hidx, rfl⟩
    exact ⟨idx, List.mem_range.1 hidx, rfl⟩
  · rintro ⟨idx, hidx, rfl⟩
    exact ⟨idx, List.mem_range.2 hidx, rfl⟩

theorem blockSize_pos (i : ℕ) : 0 < blockSize i := Nat.mul_pos (by decide) (Nat.two_pow_pos i)

theorem sixteen_le_blockSize (i : ℕ) : 16 ≤ blockSize i :=
  Nat.le_mul_of_pos_right 16 (Nat.two_pow_pos i)

theorem blockSize_le (h : i < 7) : blockSize i ≤ 1024 :=
  Nat.mul_le_mul_left 16 (Nat.pow_le_pow_right (by decide) (Nat.le_of_lt_succ h))

theorem blocksPerArena_lt (i : ℕ) : blocksPerArena i < 4096 :=
  Nat.lt_of_le_of_lt (Nat.div_le_self _ _) (by decide)

/-- The blocks are behind the header and in the page. -/
theorem bounds_of_mem_blocks (h : b ∈ blocks a i) :
    a + sizeofArena ≤ b ∧ b + blockSize i ≤ a + pgsize := by
  obtain ⟨idx, hidx, rfl⟩ := mem_blocks.1 h
  refine ⟨Nat.le_add_right _ _, ?_⟩
  have hroom : blocksPerArena i * blockSize i ≤ pgsize - sizeofArena := Nat.div_mul_le_self _ _
  have hle : (idx + 1) * blockSize i ≤ blocksPerArena i * blockSize i := Nat.mul_le_mul_right _ hidx
  rw [Nat.add_mul, Nat.one_mul] at hle
  have hpage : pgsize = 4096 := rfl
  have harena : sizeofArena = 12 := rfl
  omega

/-- Two blocks of a page have no byte in common. -/
theorem blocks_apart (hb : b ∈ blocks a i) (hc : c ∈ blocks a i) (hne : b ≠ c) :
    b + blockSize i ≤ c ∨ c + blockSize i ≤ b := by
  obtain ⟨x, -, rfl⟩ := mem_blocks.1 hb
  obtain ⟨y, -, rfl⟩ := mem_blocks.1 hc
  rcases Nat.lt_trichotomy x y with hlt | rfl | hlt
  · have hle : (x + 1) * blockSize i ≤ y * blockSize i := Nat.mul_le_mul_right _ hlt
    rw [Nat.add_mul, Nat.one_mul] at hle
    omega
  · exact absurd rfl hne
  · have hle : (y + 1) * blockSize i ≤ x * blockSize i := Nat.mul_le_mul_right _ hlt
    rw [Nat.add_mul, Nat.one_mul] at hle
    omega

theorem nodup_blocks (a i : ℕ) : (blocks a i).Nodup := by
  refine List.nodup_range.map fun x y hxy => ?_
  exact Nat.eq_of_mul_eq_mul_right (blockSize_pos i) (Nat.add_left_cancel hxy)

/-- `block_to_arena` finds the page of a block. -/
theorem pgRoundDown_of_mem_blocks (ha : pgOfs a = 0) (h : b ∈ blocks a i) : pgRoundDown b = a := by
  have hbounds := bounds_of_mem_blocks h
  have hpos := blockSize_pos i
  unfold pgOfs pgsize at ha
  unfold pgRoundDown pgsize at *
  omega

/-- Its second assertion holds of a block. -/
theorem pgOfs_of_mem_blocks (ha : pgOfs a = 0) (h : b ∈ blocks a i) :
    (pgOfs b + 2 ^ 32 - sizeofArena) % 2 ^ 32 % blockSize i = 0 := by
  have hbounds := bounds_of_mem_blocks h
  have hpos := blockSize_pos i
  obtain ⟨idx, hidx, rfl⟩ := mem_blocks.1 h
  have hofs : (pgOfs (a + sizeofArena + idx * blockSize i) + 2 ^ 32 - sizeofArena) % 2 ^ 32 =
      idx * blockSize i := by
    unfold pgOfs pgsize at ha ⊢
    unfold pgsize sizeofArena at *
    omega
  rw [hofs, Nat.mul_mod_left]

/-- Pages are apart. -/
theorem pages_apart (ha : pgOfs a = 0) (ha' : pgOfs a' = 0) (hne : a ≠ a') :
    a + pgsize ≤ a' ∨ a' + pgsize ≤ a := by
  unfold pgOfs pgsize at *
  omega

/-- **Different blocks have no byte in common**, of one page or of two. -/
theorem blocks_apart_pages (ha : pgOfs a = 0) (ha' : pgOfs a' = 0) (hb : b ∈ blocks a i)
    (hc : c ∈ blocks a' j) (hij : a = a' → i = j) (hne : b ≠ c) :
    b + blockSize i ≤ c ∨ c + blockSize j ≤ b := by
  by_cases heq : a = a'
  · subst heq
    obtain rfl := hij rfl
    exact blocks_apart hb hc hne
  · have hbb := bounds_of_mem_blocks hb
    have hcc := bounds_of_mem_blocks hc
    rcases pages_apart ha ha' heq with h | h
    · exact .inl (by omega)
    · exact .inr (by omega)

end Blocks

/-! ### The shape -/

/-- The descriptor of each arena, and each descriptor's free blocks. -/
structure Arenas where
  desc : ℕ → ℕ
  lists : ℕ → List ℕ

/-- The arenas with another list of free blocks of the descriptor `i`. -/
def Arenas.setList (A : Arenas) (i : ℕ) (l : List ℕ) : Arenas :=
  { A with lists := Function.update A.lists i l }

/-- The page is one of the kernel's pool. -/
def Layout.IsPage (L : Layout) (a : ℕ) : Prop := ∃ k < L.kernelPages, a = L.page k

/-- **What the memory holds**, where `pages` are the arenas. -/
structure Shape (L : Layout) (m : Memory) (pages : List ℕ) (A : Arenas) : Prop where
  descs : ∀ i < 7, fieldAt m (L.desc i) 0 = blockSize i ∧ fieldAt m (L.desc i) 4 = blocksPerArena i
  page : ∀ a ∈ pages, L.IsPage a ∧ A.desc a < 7
  header : ∀ a ∈ pages, fieldAt m a 0 = arenaMagic ∧ fieldAt m a 4 = L.desc (A.desc a)
  list : ∀ i < 7, IsList m (freeList (L.desc i)) (A.lists i)
  listed : ∀ i < 7, ∀ b ∈ A.lists i, ∃ a ∈ pages, A.desc a = i ∧ b ∈ blocks a i

/-- A descriptor's free list, or a block of its arenas. -/
def ListCell (L : Layout) (pages : List ℕ) (A : Arenas) (i x : ℕ) : Prop :=
  x = freeList (L.desc i) ∨ x = freeList (L.desc i) + 8 ∨
    ∃ a ∈ pages, A.desc a = i ∧ x ∈ blocks a i

section Shape

variable {L : Layout} {m m' : Memory} {pages : List ℕ} {A : Arenas} {a b c i j p x y : ℕ}
  {l : List ℕ}

theorem Layout.IsPage.pgOfs (h : L.IsPage a) : Threads.pgOfs a = 0 := by
  obtain ⟨k, -, rfl⟩ := h
  exact L.pgOfs_page k

/-- The pages are behind the descriptors. -/
theorem Layout.IsPage.bounds (h : L.IsPage a) :
    L.descs + 560 ≤ a ∧ a + 4096 ≤ 2 ^ 32 := by
  obtain ⟨k, hk, rfl⟩ := h
  have hbelow := L.below
  have hfits := L.fits
  have hle : pgsize * (k + 1) ≤ pgsize * L.kernelPages := Nat.mul_le_mul_left _ hk
  rw [Nat.mul_succ] at hle
  unfold sizeofDesc at hbelow
  unfold Layout.page
  unfold pgsize at *
  omega

theorem Layout.desc_bounds (L : Layout) (hi : i < 7) :
    0 < L.desc i ∧ L.descs ≤ L.desc i ∧ L.desc i + 56 ≤ L.descs + 392 := by
  have hpos := L.descs_pos
  unfold Layout.desc sizeofDesc
  omega

/-! #### What a free list's cells are apart from -/

theorem ListCell.apart_header (hpage : ∀ a ∈ pages, L.IsPage a) (hi : i < 7)
    (h : ListCell L pages A i x) (ha : a ∈ pages) : x + 8 ≤ a ∨ a + 12 ≤ x := by
  have hdesc := L.desc_bounds hi
  have haBounds := (hpage a ha).bounds
  unfold ListCell freeList at h
  rcases h with rfl | rfl | ⟨c, hc, -, hx⟩
  · omega
  · omega
  · have hbounds := bounds_of_mem_blocks hx
    have hsize := sixteen_le_blockSize i
    unfold sizeofArena pgsize at hbounds
    by_cases hac : a = c
    · omega
    · have hpages := pages_apart (hpage a ha).pgOfs (hpage c hc).pgOfs hac
      unfold pgsize at hpages
      omega

theorem ListCell.apart_desc (hpage : ∀ a ∈ pages, L.IsPage a) (hj : j < 7)
    (h : ListCell L pages A i x) : x + 8 ≤ L.desc j ∨ L.desc j + 8 ≤ x := by
  have hdesc := L.desc_bounds hj
  unfold ListCell freeList at h
  rcases h with rfl | rfl | ⟨c, hc, -, hx⟩
  · unfold Layout.desc sizeofDesc
    omega
  · unfold Layout.desc sizeofDesc
    omega
  · have hbounds := bounds_of_mem_blocks hx
    have hcBounds := (hpage c hc).bounds
    unfold sizeofArena at hbounds
    omega

/-- A cell of a free list's own. -/
theorem ListCell.apart_freeList (hpage : ∀ a ∈ pages, L.IsPage a) (hj : j < 7) (hij : i ≠ j)
    (h : ListCell L pages A i x) (hy : y = freeList (L.desc j) ∨ y = freeList (L.desc j) + 8) :
    Apart x y := by
  have hdesc := L.desc_bounds hj
  unfold ListCell freeList at h
  unfold freeList at hy
  unfold Apart
  rcases h with rfl | rfl | ⟨c, hc, -, hx⟩
  · unfold Layout.desc sizeofDesc at *
    omega
  · unfold Layout.desc sizeofDesc at *
    omega
  · have hbounds := bounds_of_mem_blocks hx
    have hcBounds := (hpage c hc).bounds
    unfold sizeofArena at hbounds
    omega

/-- **The lists of two descriptors are apart.** -/
theorem ListCell.apart (hpage : ∀ a ∈ pages, L.IsPage a) (hi : i < 7) (hj : j < 7) (hij : i ≠ j)
    (hx : ListCell L pages A i x) (hy : ListCell L pages A j y) : Apart x y := by
  by_cases hyl : y = freeList (L.desc j) ∨ y = freeList (L.desc j) + 8
  · exact hx.apart_freeList hpage hj hij hyl
  · by_cases hxl : x = freeList (L.desc i) ∨ x = freeList (L.desc i) + 8
    · exact (hy.apart_freeList hpage hi (Ne.symm hij) hxl).symm
    · unfold ListCell at hx hy
      obtain ⟨a, ha, rfl, hxa⟩ : ∃ a ∈ pages, A.desc a = i ∧ x ∈ blocks a i := by tauto
      obtain ⟨c, hc, rfl, hyc⟩ : ∃ c ∈ pages, A.desc c = j ∧ y ∈ blocks c j := by tauto
      have hac : a ≠ c := fun heq => hij (congrArg A.desc heq)
      have hpages := pages_apart (hpage a ha).pgOfs (hpage c hc).pgOfs hac
      have hxb := bounds_of_mem_blocks hxa
      have hyb := bounds_of_mem_blocks hyc
      have hxs := sixteen_le_blockSize (A.desc a)
      have hys := sixteen_le_blockSize (A.desc c)
      unfold Apart
      omega

theorem Shape.listCell (h : Shape L m pages A) (hi : i < 7)
    (hx : x ∈ cells (freeList (L.desc i)) (A.lists i)) : ListCell L pages A i x := by
  rcases mem_cells.1 hx with rfl | hx | rfl
  · exact .inl rfl
  · exact .inr (.inr (h.listed i hi x hx))
  · exact .inr (.inl rfl)

theorem Shape.isPage (h : Shape L m pages A) : ∀ a ∈ pages, L.IsPage a := fun a ha => (h.page a ha).1

/-! #### What keeps the shape -/

/-- **The shape is in the descriptors, the headers and the free blocks.** -/
theorem Shape.congr (h : Shape L m pages A)
    (hdescs : ∀ p, L.descs ≤ p → p < L.descs + 392 → m' p = m p)
    (hheader : ∀ a ∈ pages, ∀ p, a ≤ p → p < a + 8 → m' p = m p)
    (hfree : ∀ i < 7, ∀ b ∈ A.lists i, ∀ p, b ≤ p → p < b + 8 → m' p = m p) :
    Shape L m' pages A := by
  have hdesc : ∀ i < 7, ∀ p, L.desc i ≤ p → p < L.desc i + 56 → m' p = m p := fun i hi p hlo hhi => by
    have hbounds := L.desc_bounds hi
    exact hdescs p (by omega) (by omega)
  refine ⟨fun i hi => ?_, h.page, fun a ha => ?_, fun i hi => ?_, h.listed⟩
  · rw [fieldAt_congr fun p hlo hhi => hdesc i hi p (by omega) (by omega),
      fieldAt_congr fun p hlo hhi => hdesc i hi p (by omega) (by omega)]
    exact h.descs i hi
  · rw [fieldAt_congr fun p hlo hhi => hheader a ha p (by omega) (by omega),
      fieldAt_congr fun p hlo hhi => hheader a ha p (by omega) (by omega)]
    exact h.header a ha
  · refine (h.list i hi).congr fun x hx p hlo hhi => ?_
    rcases mem_cells.1 hx with rfl | hx | rfl
    · unfold listHead freeList at hlo hhi
      exact hdesc i hi p (by omega) (by omega)
    · exact hfree i hi x hx p hlo hhi
    · unfold listTail freeList at hlo hhi
      exact hdesc i hi p (by omega) (by omega)

/-- The counts of free blocks are the same. -/
def SameCnt (pages : List ℕ) (m m' : Memory) : Prop := ∀ a ∈ pages, fieldAt m' a 8 = fieldAt m a 8

/-- **A list function on the free list of one descriptor** keeps the rest. -/
theorem Shape.frame {xs : List ℕ} (h : Shape L m pages A) (hi : i < 7) (hoff : SameOff xs m m')
    (hxs : ∀ x ∈ xs, ListCell L pages A i x) (hlist : IsList m' (freeList (L.desc i)) l)
    (hl : ∀ b ∈ l, ∃ a ∈ pages, A.desc a = i ∧ b ∈ blocks a i) :
    Shape L m' pages (A.setList i l) ∧ SameCnt pages m m' := by
  have hheader : ∀ a ∈ pages, ∀ p, a ≤ p → p < a + 12 → m' p = m p := fun a ha p hlo hhi =>
    hoff p fun x hx => by
      have hapart := (hxs x hx).apart_header h.isPage hi ha
      omega
  have hdesc : ∀ j < 7, ∀ p, L.desc j ≤ p → p < L.desc j + 8 → m' p = m p := fun j hj p hlo hhi =>
    hoff p fun x hx => by
      have hapart := (hxs x hx).apart_desc h.isPage hj
      omega
  refine ⟨⟨fun j hj => ?_, h.page, fun a ha => ?_, fun j hj => ?_, fun j hj b hb => ?_⟩, fun a ha => ?_⟩
  · rw [fieldAt_congr fun p hlo hhi => hdesc j hj p (by omega) (by omega),
      fieldAt_congr fun p hlo hhi => hdesc j hj p (by omega) (by omega)]
    exact h.descs j hj
  · rw [fieldAt_congr fun p hlo hhi => hheader a ha p (by omega) (by omega),
      fieldAt_congr fun p hlo hhi => hheader a ha p (by omega) (by omega)]
    exact h.header a ha
  · unfold Arenas.setList
    dsimp only
    by_cases hij : j = i
    · subst hij
      rw [Function.update_self]
      exact hlist
    · rw [Function.update_of_ne hij]
      refine (h.list j hj).congr fun y hy p hlo hhi => hoff p fun x hx => ?_
      have hapart := (hxs x hx).apart h.isPage hi hj (Ne.symm hij) (h.listCell hj hy)
      unfold Apart at hapart
      omega
  · unfold Arenas.setList at hb ⊢
    dsimp only at hb ⊢
    by_cases hij : j = i
    · subst hij
      rw [Function.update_self] at hb
      exact hl b hb
    · rw [Function.update_of_ne hij] at hb
      exact h.listed j hj b hb
  · exact fieldAt_congr fun p hlo hhi => hheader a ha p (by omega) (by omega)

theorem SameCnt.trans {m'' : Memory} (h : SameCnt pages m m') (h' : SameCnt pages m' m'') :
    SameCnt pages m m'' :=
  fun a ha => (h' a ha).trans (h a ha)

/-- What is known of a list function is known of the shape. -/
theorem Shape.lists {α : Type} {f : Prog Memory α} {P : α → Prop} {xs : List ℕ} (h : Shape L m pages A)
    (hi : i < 7) (hf : Returns f m fun r m' => P r ∧ IsList m' (freeList (L.desc i)) l ∧ SameOff xs m m')
    (hxs : ∀ x ∈ xs, ListCell L pages A i x)
    (hl : ∀ b ∈ l, ∃ a ∈ pages, A.desc a = i ∧ b ∈ blocks a i) :
    Returns f m fun r m' => P r ∧ Shape L m' pages (A.setList i l) ∧ SameCnt pages m m' :=
  hf.mono fun _ _ ⟨hP, hlist, hoff⟩ => ⟨hP, h.frame hi hoff hxs hlist hl⟩

/-- A block that is not on the free list is apart from it. -/
theorem Shape.apart_of_not_mem (h : Shape L m pages A) (ha : a ∈ pages) (hb : b ∈ blocks a (A.desc a))
    (hnew : b ∉ A.lists (A.desc a)) (hx : x ∈ cells (freeList (L.desc (A.desc a))) (A.lists (A.desc a))) :
    Apart x b := by
  have hi := (h.page a ha).2
  have hbounds := bounds_of_mem_blocks hb
  have haBounds := (h.isPage a ha).bounds
  have hdesc := L.desc_bounds hi
  unfold sizeofArena at hbounds
  unfold Apart
  rcases mem_cells.1 hx with rfl | hx | rfl
  · unfold listHead freeList
    omega
  · obtain ⟨c, hc, hic, hxc⟩ := h.listed _ hi x hx
    have hne : x ≠ b := by
      rintro rfl
      exact hnew hx
    have hsize := sixteen_le_blockSize (A.desc a)
    have hapart := blocks_apart_pages (h.isPage c hc).pgOfs (h.isPage a ha).pgOfs hxc hb (fun _ => rfl) hne
    omega
  · unfold listTail freeList
    omega

theorem Shape.block_inside (h : Shape L m pages A) (ha : a ∈ pages) (hb : b ∈ blocks a i) :
    0 < b ∧ b + 8 ≤ 2 ^ 32 := by
  have hbounds := bounds_of_mem_blocks hb
  have haBounds := (h.isPage a ha).bounds
  have hsize := sixteen_le_blockSize i
  unfold sizeofArena pgsize at hbounds
  omega

theorem Shape.cells_listCell (h : Shape L m pages A) (ha : a ∈ pages) (hb : b ∈ blocks a (A.desc a))
    (hx : x ∈ b :: cells (freeList (L.desc (A.desc a))) (A.lists (A.desc a))) :
    ListCell L pages A (A.desc a) x := by
  rcases List.mem_cons.1 hx with rfl | hx
  · exact .inr (.inr ⟨a, ha, rfl, hb⟩)
  · exact h.listCell (h.page a ha).2 hx

/-- **A block is put in front of the free list.** -/
theorem Shape.push (h : Shape L m pages A) (ha : a ∈ pages) (hb : b ∈ blocks a (A.desc a))
    (hnew : b ∉ A.lists (A.desc a)) :
    Returns (listPushFront (freeList (L.desc (A.desc a))) b) m fun _ m' =>
      Shape L m' pages (A.setList (A.desc a) (b :: A.lists (A.desc a))) ∧ SameCnt pages m m' := by
  have hi := (h.page a ha).2
  have hpush := listPushFront_returns (h.list _ hi) (h.block_inside ha hb) fun x hx =>
    h.apart_of_not_mem ha hb hnew hx
  refine (h.lists hi (P := fun _ => True) (hpush.mono fun _ _ hm => ⟨trivial, hm⟩)
    (fun x hx => h.cells_listCell ha hb hx) fun c hc => ?_).mono fun _ _ hm => hm.2
  rcases List.mem_cons.1 hc with rfl | hc
  · exact ⟨a, ha, rfl, hb⟩
  · exact h.listed _ hi c hc

/-- **A block is put behind the free list.** -/
theorem Shape.pushBack (h : Shape L m pages A) (ha : a ∈ pages) (hb : b ∈ blocks a (A.desc a))
    (hnew : b ∉ A.lists (A.desc a)) :
    Returns (listPushBack (freeList (L.desc (A.desc a))) b) m fun _ m' =>
      Shape L m' pages (A.setList (A.desc a) (A.lists (A.desc a) ++ [b])) ∧ SameCnt pages m m' := by
  have hi := (h.page a ha).2
  have hpush := listPushBack_returns (h.list _ hi) (h.block_inside ha hb) fun x hx =>
    h.apart_of_not_mem ha hb hnew hx
  refine (h.lists hi (P := fun _ => True) (hpush.mono fun _ _ hm => ⟨trivial, hm⟩)
    (fun x hx => h.cells_listCell ha hb hx) fun c hc => ?_).mono fun _ _ hm => hm.2
  rcases List.mem_append.1 hc with hc | hc
  · exact h.listed _ hi c hc
  · rw [List.mem_singleton.1 hc]
    exact ⟨a, ha, rfl, hb⟩

/-- **The first free block is taken.** -/
theorem Shape.pop (h : Shape L m pages A) (hi : i < 7) (hl : A.lists i = b :: l) :
    Returns (listPopFront (freeList (L.desc i))) m fun front m' =>
      front = b ∧ Shape L m' pages (A.setList i l) ∧ SameCnt pages m m' := by
  have hlist := h.list i hi
  have hlisted := h.listed i hi
  have hcell := fun x => h.listCell (x := x) hi
  rw [hl] at hlist hlisted hcell
  exact h.lists hi (listPopFront_returns hlist) hcell fun c hc => hlisted c (List.mem_cons_of_mem b hc)

/-- **A block is taken from anywhere in the free list.** -/
theorem Shape.drop {l₁ l₂ : List ℕ} (h : Shape L m pages A) (hi : i < 7)
    (hl : A.lists i = l₁ ++ b :: l₂) :
    Returns (listRemove b) m fun _ m' =>
      Shape L m' pages (A.setList i (l₁ ++ l₂)) ∧ SameCnt pages m m' := by
  have hlist := h.list i hi
  have hlisted := h.listed i hi
  have hcell := fun x => h.listCell (x := x) hi
  rw [hl] at hlist hlisted hcell
  refine (h.lists hi (P := fun _ => True) ((listRemove_returns hlist).mono fun _ _ hm => ⟨trivial, hm⟩)
    hcell fun c hc => hlisted c ?_).mono fun _ _ hm => hm.2
  rcases List.mem_append.1 hc with hc | hc
  · exact List.mem_append_left _ hc
  · exact List.mem_append_right _ (List.mem_cons_of_mem b hc)

/-- **A count is written.** -/
theorem Shape.setCnt (h : Shape L m pages A) (ha : a ∈ pages) (v : ℕ) :
    Shape L (setFieldAt m a 8 v) pages A := by
  have haBounds := (h.isPage a ha).bounds
  refine h.congr (fun p hlo hhi => setFieldAt_of_apart (by omega)) (fun c hc p hlo hhi => ?_)
    fun i hi b hb p hlo hhi => ?_
  · refine setFieldAt_of_apart ?_
    by_cases hac : a = c
    · omega
    · have hpages := pages_apart (h.isPage a ha).pgOfs (h.isPage c hc).pgOfs hac
      unfold pgsize at hpages
      omega
  · refine setFieldAt_of_apart ?_
    have hcell : ListCell L pages A i b := .inr (.inr (h.listed i hi b hb))
    have hapart := hcell.apart_header h.isPage hi ha
    omega

/-- The count of an arena after one has been written. -/
theorem Shape.cnt_setCnt (h : Shape L m pages A) (ha : a ∈ pages) (hc : c ∈ pages) {v : ℕ}
    (hv : v < 2 ^ 32) : fieldAt (setFieldAt m a 8 v) c 8 = if c = a then v else fieldAt m c 8 := by
  split
  · rename_i heq
    subst heq
    exact fieldAt_set_self hv
  · rename_i hne
    have hpages := pages_apart (h.isPage a ha).pgOfs (h.isPage c hc).pgOfs (Ne.symm hne)
    unfold pgsize at hpages
    exact fieldAt_set_of_apart (by omega)

/-- **Blocks of arenas pass the assertions of `block_to_arena`.** -/
theorem Shape.blockToArena_returns {H : KernelHeap} (h : Shape L H.mem pages A) (ha : a ∈ pages)
    (hb : b ∈ blocks a (A.desc a)) :
    Returns (blockToArena b) H fun r H' => r = a ∧ H' = H := by
  have hofs := (h.isPage a ha).pgOfs
  have haBounds := (h.isPage a ha).bounds
  have ha0 : a ≠ 0 := by
    have hpos := L.descs_pos
    omega
  have hi := (h.page a ha).2
  have hd0 : L.desc (A.desc a) ≠ 0 := Nat.ne_of_gt (L.desc_bounds hi).1
  unfold blockToArena
  rw [pgRoundDown_of_mem_blocks hofs hb, if_neg ha0, returns_onMem_readField ha0, (h.header a ha).1,
    if_neg (not_not_intro rfl), returns_onMem_readField ha0, (h.header a ha).2, if_neg hd0,
    returns_onMem_readField hd0, (h.descs _ hi).1,
    if_pos ⟨Nat.ne_of_gt (blockSize_pos _), pgOfs_of_mem_blocks hofs hb⟩]
  exact returns_pure.2 ⟨rfl, rfl⟩

/-- **Indices below `blocks_per_arena` pass the assertions of `arena_to_block`.** -/
theorem Shape.arenaToBlock_returns {H : KernelHeap} {idx : ℕ} (h : Shape L H.mem pages A) (ha : a ∈ pages)
    (hidx : idx < blocksPerArena (A.desc a)) : Returns (arenaToBlock a idx) H fun r H' =>
      r = a + sizeofArena + idx * blockSize (A.desc a) ∧ H' = H := by
  have haBounds := (h.isPage a ha).bounds
  have ha0 : a ≠ 0 := by
    have hpos := L.descs_pos
    omega
  have hi := (h.page a ha).2
  have hd0 : L.desc (A.desc a) ≠ 0 := Nat.ne_of_gt (L.desc_bounds hi).1
  have hbounds := bounds_of_mem_blocks (mem_blocks.2 ⟨idx, hidx, rfl⟩ :
    a + sizeofArena + idx * blockSize (A.desc a) ∈ blocks a (A.desc a))
  have hsize := sixteen_le_blockSize (A.desc a)
  unfold arenaToBlock
  rw [if_neg ha0, returns_onMem_readField ha0, (h.header a ha).1, if_neg (not_not_intro rfl),
    returns_onMem_readField ha0, (h.header a ha).2, returns_onMem_readField hd0, (h.descs _ hi).2,
    if_pos hidx, returns_onMem_readField hd0, (h.descs _ hi).1]
  refine returns_pure.2 ⟨Nat.mod_eq_of_lt ?_, rfl⟩
  unfold pgsize at hbounds
  omega

end Shape

end Threads
end CS162

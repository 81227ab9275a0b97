/-
# What the parts of malloc and free do to the arenas

`malloc_init` leaves seven descriptors without arenas.  The loops over an arena's blocks put all
of them on the free list, and take all of them from it, wherever they are.
-/

import CS162.Threads.Arenas

namespace CS162
namespace Threads

open CS162.Basis CS162.Lib

variable {L : Layout} {H : KernelHeap} {m m' : Memory} {pages : List ℕ} {A : Arenas} {a b c i p : ℕ}
  {l : List ℕ}

/-! ### `malloc_init` -/

/-- The first `n` descriptors, without free blocks. -/
def Prepared (L : Layout) (m : Memory) (n : ℕ) : Prop :=
  ∀ i < n, fieldAt m (L.desc i) 0 = blockSize i ∧ fieldAt m (L.desc i) 4 = blocksPerArena i ∧
    IsList m (freeList (L.desc i)) []

/-- One descriptor more. -/
theorem initDesc_returns (h : Prepared L m i) (hi : i < 7) :
    Returns (listInit (freeList (L.desc i)))
      (setFieldAt (setFieldAt m (L.desc i) 0 (blockSize i)) (L.desc i) 4 (blocksPerArena i))
      fun _ m' => Prepared L m' (i + 1) := by
  have hdesc := L.desc_bounds hi
  have hbelow := L.below
  have hfits := L.fits
  have hsize : blockSize i < 2 ^ 32 ∧ blocksPerArena i < 2 ^ 32 :=
    ⟨Nat.lt_of_le_of_lt (blockSize_le hi) (by decide),
      Nat.lt_trans (blocksPerArena_lt i) (by decide)⟩
  unfold sizeofDesc at hbelow
  unfold pgsize at hfits
  have hlist : 0 < freeList (L.desc i) ∧ freeList (L.desc i) + 16 ≤ 2 ^ 32 := by
    unfold freeList
    omega
  refine (listInit_returns hlist.1 hlist.2).mono fun _ m' ⟨hnew, hoff⟩ j hj => ?_
  have hsame : ∀ p, p < L.desc i + 8 ∨ L.desc i + 24 ≤ p → m' p =
      setFieldAt (setFieldAt m (L.desc i) 0 (blockSize i)) (L.desc i) 4 (blocksPerArena i) p :=
    fun p hp => hoff p fun x hx => by
      rcases mem_cells.1 hx with rfl | hx | rfl
      · unfold listHead freeList
        omega
      · cases hx
      · unfold listTail freeList
        omega
  by_cases hji : j = i
  · subst hji
    refine ⟨?_, ?_, hnew⟩
    · rw [fieldAt_congr fun p hlo hhi => hsame p (by omega), fieldAt_set_of_apart (by omega),
        fieldAt_set_self hsize.1]
    · rw [fieldAt_congr fun p hlo hhi => hsame p (by omega), fieldAt_set_self hsize.2]
  · have hapart : L.desc j + 56 ≤ L.desc i := by
      unfold Layout.desc sizeofDesc
      omega
    have hold : ∀ p, p < L.desc i → m' p = m p := fun p hp => by
      rw [hsame p (by omega), setFieldAt_of_apart (by omega), setFieldAt_of_apart (by omega)]
    obtain ⟨hblock, hper, hlist⟩ := h j (by omega)
    refine ⟨?_, ?_, hlist.congr fun x hx p hlo hhi => hold p ?_⟩
    · rw [fieldAt_congr fun p hlo hhi => hold p (by omega)]
      exact hblock
    · rw [fieldAt_congr fun p hlo hhi => hold p (by omega)]
      exact hper
    · rcases mem_cells.1 hx with rfl | hx | rfl
      · unfold listHead freeList at hhi
        omega
      · cases hx
      · unfold listTail freeList at hhi
        omega

/-- The loop of `malloc_init`, by induction on the descriptors that are to come. -/
theorem mallocInitLoop_returns {n turns : ℕ} (hn : i + n = 7) (h : Prepared L H.mem i)
    (hcnt : H.descCnt = i) (hturns : n < turns) :
    Returns (mallocInitLoop L turns (blockSize i)) H fun _ H' =>
      Prepared L H'.mem 7 ∧ H' = { H with mem := H'.mem, descCnt := 7 } := by
  induction n generalizing i turns H with
  | zero =>
    obtain ⟨turns, rfl⟩ := Nat.exists_eq_succ_of_ne_zero (Nat.ne_of_gt hturns)
    obtain rfl : i = 7 := hn
    unfold mallocInitLoop
    rw [if_neg (by decide), returns_pure]
    exact ⟨h, by rw [← hcnt]⟩
  | succ n ih =>
    obtain ⟨turns, rfl⟩ := Nat.exists_eq_succ_of_ne_zero (Nat.ne_of_gt (Nat.lt_of_le_of_lt (Nat.zero_le _) hturns))
    have hi : i < 7 := by omega
    have hdesc := L.desc_bounds hi
    have hd0 : L.desc i ≠ 0 := by omega
    have hlt : blockSize i < pgsize / 2 := Nat.lt_of_le_of_lt (blockSize_le hi) (by decide)
    have hnext : blockSize i * 2 = blockSize (i + 1) := by
      unfold blockSize
      rw [Nat.pow_succ, Nat.mul_assoc]
    unfold mallocInitLoop
    rw [if_pos hlt, returns_get_bind, returns_modify_bind, hcnt, if_neg (by omega)]
    change Returns (onMem (writeField (L.desc i) 0 (blockSize i)) >>= _) _ _
    rw [returns_onMem_writeField hd0]
    change Returns (onMem (writeField (L.desc i) 4 (blocksPerArena i)) >>= _) _ _
    rw [returns_onMem_writeField hd0, hnext]
    refine Returns.seq (Returns.onMem (initDesc_returns h hi)) ?_
    rintro _ _ ⟨m, rfl, hm⟩
    exact ih (by omega) hm rfl (Nat.lt_of_succ_lt_succ hturns)

/-- **`malloc_init`** returns. -/
theorem mallocInit_returns (hcnt : H.descCnt = 0) : Returns (mallocInit L) H fun _ H' =>
    Shape L H'.mem [] ⟨fun _ => 0, fun _ => []⟩ ∧ H' = { H with mem := H'.mem, descCnt := 7 } := by
  refine (mallocInitLoop_returns (n := 7) rfl nofun hcnt (by decide)).mono fun _ H' ⟨hm, hH⟩ => ⟨?_, hH⟩
  exact ⟨fun i hi => ⟨(hm i hi).1, (hm i hi).2.1⟩, nofun, nofun, fun i hi => (hm i hi).2.2, nofun⟩

/-! ### The smallest descriptor -/

/-- The loop of `malloc` that looks for a descriptor. -/
theorem findDesc_returns {n size : ℕ} (h : Shape L H.mem pages A) (hn : i + (n + 1) = 7) (hsize : size ≤ 1024) :
    Returns (findDesc size (n + 1) (L.desc i)) H fun d H' =>
      (∃ j < 7, d = L.desc j ∧ size ≤ blockSize j) ∧ H' = H := by
  have hi : i < 7 := by omega
  have hd0 : L.desc i ≠ 0 := Nat.ne_of_gt (L.desc_bounds hi).1
  induction n generalizing i with
  | zero =>
    obtain rfl : i = 6 := by omega
    unfold findDesc
    rw [returns_onMem_readField hd0, (h.descs 6 hi).1, if_pos (by exact hsize), returns_pure]
    exact ⟨⟨6, hi, rfl, hsize⟩, rfl⟩
  | succ n ih =>
    have hi' : i + 1 < 7 := by omega
    unfold findDesc
    rw [returns_onMem_readField hd0, (h.descs i hi).1]
    split
    · rename_i hle
      exact returns_pure.2 ⟨⟨i, hi, rfl, hle⟩, rfl⟩
    · exact ih (by omega) hi' (Nat.ne_of_gt (L.desc_bounds hi').1)

/-! ### The blocks of an arena -/

theorem setList_setList (A : Arenas) (i : ℕ) (l l' : List ℕ) :
    (A.setList i l).setList i l' = A.setList i l' := by
  unfold Arenas.setList
  dsimp only
  rw [Function.update_idem]

theorem lists_setList_self (A : Arenas) (i : ℕ) (l : List ℕ) : (A.setList i l).lists i = l :=
  Function.update_self ..

theorem lists_setList_of_ne {i j : ℕ} (A : Arenas) (l : List ℕ) (h : j ≠ i) :
    (A.setList i l).lists j = A.lists j :=
  Function.update_of_ne h ..

theorem setList_lists (A : Arenas) (i : ℕ) : A.setList i (A.lists i) = A := by
  unfold Arenas.setList
  rw [Function.update_eq_self]

theorem length_blocks (a i : ℕ) : (blocks a i).length = blocksPerArena i := by
  unfold blocks
  rw [List.length_map, List.length_range]

theorem block_mem {idx : ℕ} (a : ℕ) (h : idx < blocksPerArena i) :
    a + sizeofArena + idx * blockSize i ∈ blocks a i :=
  mem_blocks.2 ⟨idx, h, rfl⟩

theorem drop_blocks {idx : ℕ} (h : idx < blocksPerArena i) : (blocks a i).drop idx =
    (a + sizeofArena + idx * blockSize i) :: (blocks a i).drop (idx + 1) := by
  unfold blocks
  rw [List.drop_eq_getElem_cons (by simpa using h), List.getElem_map, List.getElem_range]

/-- **The blocks of a new arena are put on the free list**, by induction on those that are to
come; those before them are on it. -/
theorem pushBlocks_returns {n idx : ℕ} (h : Shape L H.mem pages A) (ha : a ∈ pages) (hai : A.desc a = i)
    (hn : idx + n = blocksPerArena i)
    (hnew : ∀ b ∈ (blocks a i).drop idx, b ∉ A.lists i) :
    Returns (pushBlocks (L.desc i) a n idx) H fun _ H' => MemOnly (fun m =>
      Shape L m pages (A.setList i (A.lists i ++ (blocks a i).drop idx)) ∧
        SameCnt pages H.mem m) H H' := by
  induction n generalizing idx A H with
  | zero =>
    have hdrop : (blocks a i).drop idx = [] := by
      rw [List.drop_eq_nil_iff, length_blocks]
      omega
    rw [hdrop, List.append_nil, setList_lists]
    exact returns_pure.2 ⟨H.mem, rfl, h, fun _ _ => rfl⟩
  | succ n ih =>
    have hidx : idx < blocksPerArena i := by omega
    rw [drop_blocks hidx] at hnew ⊢
    have hnodup : ((blocks a i).drop idx).Nodup := (nodup_blocks a _).sublist (List.drop_sublist _ _)
    rw [drop_blocks hidx, List.nodup_cons] at hnodup
    have hblock := h.arenaToBlock_returns ha (hai.symm ▸ hidx)
    have hpush := h.pushBack ha (hai.symm ▸ block_mem a hidx) (hai.symm ▸ hnew _ List.mem_cons_self)
    rw [hai] at hblock hpush
    unfold pushBlocks
    refine hblock.seq ?_
    rintro b _ ⟨rfl, rfl⟩
    refine (Returns.onMem hpush).seq ?_
    rintro _ _ ⟨m, rfl, hm, hcnt⟩
    refine (ih (A := A.setList i _) hm hai (by omega) fun c hc => ?_).mono fun _ H' hH' => ?_
    · rw [lists_setList_self, List.mem_append, List.mem_singleton]
      rintro (hc' | rfl)
      · exact hnew c (List.mem_cons_of_mem _ hc) hc'
      · exact hnodup.1 hc
    · obtain ⟨m', rfl, hm', hcnt'⟩ := hH'
      rw [lists_setList_self, setList_setList, List.append_assoc] at hm'
      exact ⟨m', rfl, hm', hcnt.trans hcnt'⟩

/-- An element of a list without repetitions is the one that is taken from it. -/
theorem append_eq_filter {l₁ l₂ : List ℕ} (h : (l₁ ++ b :: l₂).Nodup) :
    l₁ ++ l₂ = (l₁ ++ b :: l₂).filter fun c => decide (c ≠ b) := by
  obtain ⟨-, hl₂, hne⟩ := List.nodup_append.1 h
  rw [List.filter_append, List.filter_cons_of_neg (by simp)]
  congr 1
  · refine (List.filter_eq_self.2 fun c hc => ?_).symm
    exact decide_eq_true (hne c hc b List.mem_cons_self)
  · refine (List.filter_eq_self.2 fun c hc => ?_).symm
    refine decide_eq_true ?_
    rintro rfl
    exact (List.nodup_cons.1 hl₂).1 hc

/-- **The blocks of an arena are taken from the free list**, from wherever they are, by induction
on those that are to come. -/
theorem removeBlocks_returns {n idx : ℕ} (h : Shape L H.mem pages A) (ha : a ∈ pages) (hai : A.desc a = i)
    (hn : idx + n = blocksPerArena i)
    (hfree : ∀ b ∈ (blocks a i).drop idx, b ∈ A.lists i) :
    Returns (removeBlocks a n idx) H fun _ H' => MemOnly (fun m =>
      Shape L m pages (A.setList i ((A.lists i).filter fun c =>
        decide (c ∉ (blocks a i).drop idx))) ∧ SameCnt pages H.mem m) H H' := by
  induction n generalizing idx A H with
  | zero =>
    have hdrop : (blocks a i).drop idx = [] := by
      rw [List.drop_eq_nil_iff, length_blocks]
      omega
    rw [hdrop, List.filter_eq_self.2 fun c _ => decide_eq_true List.not_mem_nil, setList_lists]
    exact returns_pure.2 ⟨H.mem, rfl, h, fun _ _ => rfl⟩
  | succ n ih =>
    have hidx : idx < blocksPerArena i := by omega
    have hi : i < 7 := hai ▸ (h.page a ha).2
    rw [drop_blocks hidx] at hfree ⊢
    have hnodup : ((blocks a i).drop idx).Nodup := (nodup_blocks a _).sublist (List.drop_sublist _ _)
    rw [drop_blocks hidx, List.nodup_cons] at hnodup
    obtain ⟨l₁, l₂, hl⟩ := List.append_of_mem (hfree _ List.mem_cons_self)
    have hrest : l₁ ++ l₂ = (A.lists i).filter fun c =>
        decide (c ≠ a + sizeofArena + idx * blockSize i) := by
      have hlist := (h.list i hi).nodup
      rw [hl] at hlist ⊢
      exact append_eq_filter hlist
    have hblock := h.arenaToBlock_returns ha (hai.symm ▸ hidx)
    rw [hai] at hblock
    unfold removeBlocks
    refine hblock.seq ?_
    rintro b _ ⟨rfl, rfl⟩
    refine (Returns.onMem (h.drop hi hl)).seq ?_
    rintro _ _ ⟨m, rfl, hm, hcnt⟩
    rw [hrest] at hm
    refine (ih (A := A.setList i _) hm hai (by omega) fun c hc => ?_).mono fun _ H' hH' => ?_
    · rw [lists_setList_self, List.mem_filter]
      refine ⟨hfree c (List.mem_cons_of_mem _ hc), decide_eq_true ?_⟩
      rintro rfl
      exact hnodup.1 hc
    · obtain ⟨m', rfl, hm', hcnt'⟩ := hH'
      rw [lists_setList_self, setList_setList, List.filter_filter] at hm'
      refine ⟨m', rfl, ?_, hcnt.trans hcnt'⟩
      refine Eq.mp (congrArg (fun l => Shape L m' pages (A.setList i l)) ?_) hm'
      refine List.filter_congr fun c _ => ?_
      rw [← Bool.decide_and, decide_eq_decide, List.mem_cons, not_or, and_comm]

/-! ### A new arena -/

/-- **Other pages do not matter.** -/
theorem Shape.outside (h : Shape L m pages A) (hpage : L.IsPage a) (hnew : a ∉ pages)
    (hsame : ∀ p, p < a ∨ a + pgsize ≤ p → m' p = m p) : Shape L m' pages A ∧ SameCnt pages m m' := by
  have haBounds := hpage.bounds
  have hapart : ∀ c ∈ pages, a + pgsize ≤ c ∨ c + pgsize ≤ a := fun c hc =>
    pages_apart hpage.pgOfs (h.isPage c hc).pgOfs fun heq => hnew (heq ▸ hc)
  unfold pgsize at hapart hsame
  refine ⟨h.congr (fun p hlo hhi => hsame p (by omega)) (fun c hc p hlo hhi => hsame p ?_)
    (fun i hi b hb p hlo hhi => hsame p ?_), fun c hc => fieldAt_congr fun p hlo hhi => hsame p ?_⟩
  · have hac := hapart c hc
    omega
  · obtain ⟨c, hc, -, hbc⟩ := h.listed i hi b hb
    have hac := hapart c hc
    have hbounds := bounds_of_mem_blocks hbc
    have hsize := sixteen_le_blockSize i
    unfold pgsize sizeofArena at hbounds
    omega
  · have hac := hapart c hc
    omega

/-- The arenas with one more, of the descriptor `i`. -/
def Arenas.addPage (A : Arenas) (a i : ℕ) : Arenas := { A with desc := Function.update A.desc a i }

/-- The header of an arena. -/
def headed (m : Memory) (a d n : ℕ) : Memory :=
  setFieldAt (setFieldAt (setFieldAt m a 0 arenaMagic) a 4 d) a 8 n

/-- A page gets the header of an arena. -/
theorem Shape.addPage (h : Shape L m pages A) (hpage : L.IsPage a) (hnew : a ∉ pages) (hi : i < 7) :
    Shape L (headed m a (L.desc i) (blocksPerArena i)) (a :: pages) (A.addPage a i) ∧
      SameCnt pages m (headed m a (L.desc i) (blocksPerArena i)) := by
  have hbounds := L.desc_bounds hi
  have hbelow := L.below
  have haBounds := hpage.bounds
  have hsame : ∀ p, p < a ∨ a + pgsize ≤ p → headed m a (L.desc i) (blocksPerArena i) p = m p := fun p hp => by
    unfold pgsize at hp
    unfold headed
    rw [setFieldAt_of_apart (by omega), setFieldAt_of_apart (by omega), setFieldAt_of_apart (by omega)]
  obtain ⟨hold, hcnt⟩ := h.outside hpage hnew hsame
  have hne : ∀ c ∈ pages, c ≠ a := fun c hc heq => hnew (heq ▸ hc)
  have hdesc : ∀ c ∈ pages, (A.addPage a i).desc c = A.desc c := fun c hc =>
    Function.update_of_ne (hne c hc) ..
  have hself : (A.addPage a i).desc a = i := Function.update_self ..
  refine ⟨⟨hold.descs, fun c hc => ?_, fun c hc => ?_, hold.list, fun j hj b hb => ?_⟩, hcnt⟩
  · rcases List.mem_cons.1 hc with rfl | hc
    · exact ⟨hpage, by rw [hself]; exact hi⟩
    · rw [hdesc c hc]
      exact hold.page c hc
  · rcases List.mem_cons.1 hc with rfl | hc
    · rw [hself]
      unfold headed
      rw [fieldAt_set_of_apart (by omega), fieldAt_set_of_apart (by omega), fieldAt_set_self (by decide),
        fieldAt_set_of_apart (by omega), fieldAt_set_self (by omega)]
      exact ⟨rfl, rfl⟩
    · rw [hdesc c hc]
      exact hold.header c hc
  · obtain ⟨c, hc, hcj, hbc⟩ := hold.listed j hj b hb
    exact ⟨c, List.mem_cons_of_mem a hc, (hdesc c hc).trans hcj, hbc⟩

theorem cnt_headed {d n : ℕ} (hn : n < 2 ^ 32) : fieldAt (headed m a d n) a 8 = n := fieldAt_set_self hn

/-- **A new arena**: all its blocks are on the free list, which was empty. -/
theorem initArena_returns (h : Shape L H.mem pages A) (hpage : L.IsPage a) (hnew : a ∉ pages) (hi : i < 7)
    (hempty : A.lists i = []) :
    Returns (initArena (L.desc i) a) H fun _ H' => MemOnly (fun m =>
      Shape L m (a :: pages) ((A.addPage a i).setList i (blocks a i)) ∧ SameCnt pages H.mem m ∧
        fieldAt m a 8 = blocksPerArena i) H H' := by
  have hbounds := L.desc_bounds hi
  have haBounds := hpage.bounds
  have ha0 : a ≠ 0 := by omega
  have hd0 : L.desc i ≠ 0 := by omega
  have hper : fieldAt (setFieldAt (setFieldAt H.mem a 0 arenaMagic) a 4 (L.desc i)) (L.desc i) 4 =
      blocksPerArena i := by
    rw [fieldAt_set_of_apart (by omega), fieldAt_set_of_apart (by omega)]
    exact (h.descs i hi).2
  obtain ⟨hadd, hcnt⟩ := h.addPage hpage hnew hi
  have hlen := blocksPerArena_lt i
  unfold initArena
  rw [returns_onMem_writeField ha0, returns_onMem_writeField ha0, returns_onMem_readField hd0, hper,
    returns_onMem_writeField ha0]
  have hn : 0 + blocksPerArena i = blocksPerArena i := Nat.zero_add _
  refine (pushBlocks_returns (H := { H with mem := headed H.mem a (L.desc i) (blocksPerArena i) })
    hadd List.mem_cons_self (Function.update_self ..) hn fun b _ hb => ?_).mono fun _ H' hH' => ?_
  · change b ∈ A.lists i at hb
    rw [hempty] at hb
    cases hb
  · obtain ⟨m', rfl, hm', hcnt'⟩ := hH'
    change Shape L m' _ ((A.addPage a i).setList i (A.lists i ++ _)) at hm'
    rw [hempty, List.nil_append, List.drop_zero] at hm'
    refine ⟨m', rfl, hm', hcnt.trans fun c hc => hcnt' c (List.mem_cons_of_mem a hc), ?_⟩
    exact (hcnt' a List.mem_cons_self).trans (cnt_headed (by omega))

/-- **A block is taken**, and counted. -/
theorem takeBlock_returns (h : Shape L H.mem pages A) (ha : a ∈ pages) (hai : A.desc a = i)
    (hb : b ∈ blocks a i) (hl : A.lists i = b :: l) :
    Returns (takeBlock (L.desc i)) H fun r H' => r = b ∧ MemOnly (fun m =>
      Shape L m pages (A.setList i l) ∧ ∀ c ∈ pages, fieldAt m c 8 =
        if c = a then (fieldAt H.mem a 8 + 2 ^ 32 - 1) % 2 ^ 32 else fieldAt H.mem c 8) H H' := by
  have hi : i < 7 := hai ▸ (h.page a ha).2
  have hpos := L.descs_pos
  have haBounds := (h.isPage a ha).bounds
  have ha0 : a ≠ 0 := by omega
  unfold takeBlock
  refine (Returns.onMem (h.pop hi hl)).seq ?_
  rintro front _ ⟨m, rfl, rfl, hm, hcnt⟩
  refine (hm.blockToArena_returns (H := { H with mem := m }) ha (hai.symm ▸ hb)).seq ?_
  rintro r _ ⟨hr, rfl⟩
  rw [hr, returns_onMem_readField ha0, returns_onMem_writeField ha0, returns_pure]
  refine ⟨rfl, _, rfl, hm.setCnt ha _, fun c hc => ?_⟩
  rw [hm.cnt_setCnt ha hc (Nat.mod_lt _ (by decide)), hcnt a ha, hcnt c hc]

/-! ### Bytes inside blocks, and an arena less -/

/-- **The insides of blocks that are not free do not matter.** -/
theorem Shape.inside {used : List (ℕ × ℕ)} (h : Shape L m pages A)
    (hused : ∀ x ∈ used, ∃ a ∈ pages, x.1 ∈ blocks a (A.desc a) ∧ x.2 ≤ blockSize (A.desc a) ∧
      x.1 ∉ A.lists (A.desc a))
    (hdescs : ∀ q, L.descs ≤ q → q < L.descs + 392 → m' q = m q)
    (hpages : ∀ a ∈ pages, ∀ q, a ≤ q → q < a + pgsize →
      (∀ x ∈ used, q < x.1 ∨ x.1 + x.2 ≤ q) → m' q = m q) :
    Shape L m' pages A ∧ SameCnt pages m m' := by
  have hpage : pgsize = 4096 := rfl
  have harena : sizeofArena = 12 := rfl
  have hheader : ∀ a ∈ pages, ∀ q, a ≤ q → q < a + 12 → m' q = m q := fun a ha q hlo hhi =>
    hpages a ha q hlo (by omega) fun x hx => by
      obtain ⟨c, hc, hxc, hsize, -⟩ := hused x hx
      have hbounds := bounds_of_mem_blocks hxc
      by_cases hca : c = a
      · omega
      · have hapart := pages_apart (h.isPage c hc).pgOfs (h.isPage a ha).pgOfs hca
        omega
  refine ⟨h.congr hdescs (fun a ha q hlo hhi => hheader a ha q hlo (by omega)) fun i hi b hb q hlo hhi => ?_,
    fun a ha => fieldAt_congr fun q hlo hhi => hheader a ha q (by omega) (by omega)⟩
  obtain ⟨a, ha, hai, hba⟩ := h.listed i hi b hb
  have hbounds := bounds_of_mem_blocks hba
  have hsmall := sixteen_le_blockSize i
  refine hpages a ha q (by omega) (by omega) fun x hx => ?_
  obtain ⟨c, hc, hxc, hsize, hfree⟩ := hused x hx
  have hne : b ≠ x.1 := by
    rintro rfl
    have hca : a = c := by
      rw [← pgRoundDown_of_mem_blocks (h.isPage a ha).pgOfs hba]
      exact pgRoundDown_of_mem_blocks (h.isPage c hc).pgOfs hxc
    subst hca
    exact hfree (hai.symm ▸ hb)
  have hapart := blocks_apart_pages (h.isPage a ha).pgOfs (h.isPage c hc).pgOfs hba hxc
    (fun heq => heq ▸ hai.symm) hne
  omega

/-- An arena without free blocks is one no longer. -/
theorem Shape.forget (h : Shape L m pages A)
    (hnone : ∀ i < 7, ∀ b ∈ A.lists i, b ∉ blocks a i) :
    Shape L m (pages.filter fun c => decide (c ≠ a)) A where
  descs := h.descs
  page c hc := h.page c (List.mem_of_mem_filter hc)
  header c hc := h.header c (List.mem_of_mem_filter hc)
  list := h.list
  listed i hi b hb := by
    obtain ⟨c, hc, hci, hbc⟩ := h.listed i hi b hb
    refine ⟨c, List.mem_filter.2 ⟨hc, decide_eq_true ?_⟩, hci, hbc⟩
    rintro rfl
    exact hnone i hi b hb hbc

end Threads
end CS162

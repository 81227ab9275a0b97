/-
# What success of `allocate_blocks` means

`projects1-3/src/filesys/inode.c`, lines 190-235, 309-451 and 705-740.

`allocate_blocks` returns true where its entries end, however many blocks it was
asked for, and `inode_create` and `inode_resize` set the length they were given.
So what they report holds as far as there are entries, and no further
(`allocateBlocks_adds`, `inodeCreate_maps`, `inodeResize_maps`).  A file that is
made shorter keeps no block at its front: `free_blocks` begins there.
-/

import CS162.Filesys.BlockMapRuns
import CS162.Filesys.IndexFree
import CS162.Filesys.IndexGrow

namespace CS162
namespace Filesys

open CS162.Basis

/-- The file system is in use: the free map's file is open, and its sectors and sector `0` are
allocated. -/
structure InUse (fm : Tree) (held : Option InodePtr) (σ : FsState) : Prop where
  file : FreeMapFile fm held σ
  isOpen : σ.freeMapFile ≠ none
  reserved : Reserved fm.sectors σ

/-- The sector of data block `b` of the inode `d`; `0` is none. -/
def dataSector (store : BlockSector → Sector) (d : Sector) (b : ℕ) : BlockSector :=
  nodeSector store 0 d (.data b)

theorem nodeSector_data (store : BlockSector → Sector) (root : BlockSector) (d : Sector) (b : ℕ) :
    nodeSector store root d (.data b) = dataSector store d b := rfl

/-- The inode `d` at `root` is sound: what its entries say are sectors of the device that are
apart from each other, allocated, and not the free map file's. -/
def Sound (own : Set BlockSector) (σ : FsState) (root : BlockSector) (d : Sector) : Prop :=
  Indexed own {.root} σ (indexOf σ.store root d)

/-- The entries of the data blocks below `f` of the inode `d` that are `0`. -/
def emptyEntries (store : BlockSector → Sector) (d : Sector) (f : ℕ) : Finset ℕ :=
  (Finset.range f).filter fun b => dataSector store d b = 0

/-- Exactly `blocks` data blocks were added to the inode `d`, from sectors that were free. -/
structure Adds (blocks : ℕ) (σ : FsState) (d : Sector) (σ' : FsState) (d' : Sector) : Prop where
  keep : ∀ b, dataSector σ.store d b ≠ 0 → dataSector σ'.store d' b = dataSector σ.store d b
  fresh : ∀ b, dataSector σ.store d b = 0 → dataSector σ'.store d' b ≠ 0 →
    σ.freeMap.bits (dataSector σ'.store d' b).toNat = false ∧
      σ'.freeMap.bits (dataSector σ'.store d' b).toNat = true
  count : ((Finset.range capacity).filter fun b =>
    dataSector σ.store d b = 0 ∧ dataSector σ'.store d' b ≠ 0).card = blocks

/-- `byte_to_sector` maps offset `pos` of the inode at `root` to a data sector of it that is
allocated and not `0`. -/
def Maps (σ : FsState) (root : BlockSector) (pos : ℕ) : Prop :=
  Returns (byteToSector root pos) σ fun sector _ =>
    sector = dataSector σ.store (σ.store root) (pos / 512) ∧ sector ≠ 0 ∧
      σ.freeMap.bits sector.toNat = true

/-! ### Counting entries -/

theorem Index.empties_mono (ι : Index) {f f' : ℕ} (h : f ≤ f') : ι.empties f ⊆ ι.empties f' := by
  refine Finset.filter_subset_filter _ fun b hb => ?_
  rw [Finset.mem_range] at hb ⊢
  omega

theorem Index.mem_empties {ι : Index} {f b : ℕ} :
    b ∈ ι.empties f ↔ b < f ∧ ι.sector (.data b) = 0 := by
  rw [Index.empties, Finset.mem_filter, Finset.mem_range]

/-! ### Sizes as sectors -/

/-- A sum that is negative as an `int` is rounded towards `0`. -/
theorem bytesToSectors_of_neg {n : ℤ} {m : ℕ} (h : wrap32 (n + 511) = -(m : ℤ)) (hm : m ≤ 2 ^ 31) :
    bytesToSectors n = if m < 512 then 0 else 2 ^ 32 - m / 512 := by
  unfold bytesToSectors
  rw [h, Int.neg_tdiv, Int.tdiv_eq_ediv_of_nonneg (Int.natCast_nonneg _)]
  split_ifs with hlt
  · have hzero : m / 512 = 0 := Nat.div_eq_of_lt hlt
    omega
  · omega

/-- Near the largest `int` the sum is negative. -/
theorem wrap32_add_of_ge {n : ℕ} (h : 2 ^ 31 ≤ n + 511) (hn : n < 2 ^ 31) :
    wrap32 ((n : ℤ) + 511) = -((2 ^ 32 - 511 - n : ℕ) : ℤ) := by
  have hmod : ((n : ℤ) + 511) % (2 ^ 32 : ℕ) = (n : ℤ) + 511 := by omega
  have hlarge : ¬(n : ℤ) + 511 < (((2 ^ 32 : ℕ) : ℤ) + 1) / 2 := by omega
  have hdiff : (n : ℤ) + 511 - (2 ^ 32 : ℕ) = -((2 ^ 32 - 511 - n : ℕ) : ℤ) := by omega
  unfold wrap32
  rw [Int.bmod_def, hmod, if_neg hlarge]
  exact hdiff

theorem wrap32_neg {m : ℕ} (h : 0 < m) (h' : m ≤ 2 ^ 31) : wrap32 (-(m : ℤ)) = -(m : ℤ) := by
  have hmod : (-(m : ℤ)) % (2 ^ 32 : ℕ) = 2 ^ 32 - (m : ℤ) := by omega
  have hlarge : ¬2 ^ 32 - (m : ℤ) < (((2 ^ 32 : ℕ) : ℤ) + 1) / 2 := by omega
  have hdiff : 2 ^ 32 - (m : ℤ) - (2 ^ 32 : ℕ) = -(m : ℤ) := by omega
  unfold wrap32
  rw [Int.bmod_def, hmod, if_neg hlarge]
  exact hdiff

/-- What is needed of an `off_t` that is rounded up to sectors. -/
theorem bytesToSectors_le {n : ℕ} (hn : n < 2 ^ 31) :
    bytesToSectors n ≤ capacity ↔ n ≤ 512 * capacity := by
  unfold capacity
  rcases Nat.lt_or_ge (n + 511) (2 ^ 31) with hlt | hge
  · rw [bytesToSectors_of_lt hlt]
    omega
  · rw [bytesToSectors_of_neg (wrap32_add_of_ge hge hn) (by omega), if_neg (by omega)]
    omega

section Filling

variable {own : Set BlockSector} {inv : FsState → Prop} {σ₀ σ : FsState} {ι₀ ι : Index}
  {buf : Set Slot} {f a blocks : ℕ}

/-- The entries that were filled are the first empty ones. -/
theorem Filling.filled_iff (h : Filling own inv σ₀ ι₀ buf f a σ ι) {b : ℕ} :
    ι₀.sector (.data b) = 0 ∧ ι.sector (.data b) ≠ 0 ↔ b ∈ ι₀.empties f := by
  rw [Index.mem_empties]
  constructor
  · rintro ⟨hzero, hne⟩
    refine ⟨?_, hzero⟩
    by_contra hge
    exact hne ((h.rest b (not_lt.1 hge)).trans hzero)
  · rintro ⟨hlt, hzero⟩
    exact ⟨hzero, h.full b hlt⟩

/-- All blocks below `goal` are there if and only if there are entries for them and enough were
asked for. -/
theorem Filling.full_iff (h : Filling own inv σ₀ ι₀ buf f a σ ι)
    (hend : f = capacity ∨ blocks ≤ (ι₀.empties f).card) (hle : (ι₀.empties f).card ≤ blocks)
    (goal : ℕ) : (∀ b < goal, ι.sector (.data b) ≠ 0) ↔
      goal ≤ capacity ∧ (ι₀.empties goal).card ≤ blocks := by
  constructor
  · intro hall
    refine ⟨?_, ?_⟩
    · by_contra hlt
      exact hall capacity (not_le.1 hlt) (h.indexed.bounded le_rfl)
    · refine (Finset.card_le_card fun b hb => ?_).trans hle
      obtain ⟨hlt, hzero⟩ := Index.mem_empties.1 hb
      exact h.filled_iff.1 ⟨hzero, hall b hlt⟩
  · rintro ⟨hcap, hcard⟩ b hb hno
    have hfb : f ≤ b := by
      by_contra hlt
      exact h.full b (not_le.1 hlt) hno
    have hzero : ι₀.sector (.data b) = 0 := by rw [← h.rest b hfb, hno]
    -- the entry `b` is one more than were filled
    have hsub : insert b (ι₀.empties f) ⊆ ι₀.empties goal := by
      intro x hx
      rcases Finset.mem_insert.1 hx with rfl | hx
      · exact Index.mem_empties.2 ⟨hb, hzero⟩
      · exact ι₀.empties_mono (hfb.trans hb.le) hx
    have hnot : b ∉ ι₀.empties f := fun hmem => absurd (Index.mem_empties.1 hmem).1 (not_lt.2 hfb)
    have hmore := Finset.card_le_card hsub
    rw [Finset.card_insert_of_notMem hnot] at hmore
    rcases hend with rfl | hge
    · omega
    · omega

end Filling

/-! ### `allocate_blocks` -/

section Claims

variable {fm : Tree} {held : Option InodePtr} {root : BlockSector} {d d' : Sector} {σ σ' : FsState}
  {blocks : ℕ}

/-- What is in the sectors after `allocate_blocks`. -/
theorem Filling.dataSector_eq {own : Set BlockSector} {inv : FsState → Prop} {σ₀ : FsState}
    {ι₀ ι : Index} {f a : ℕ} (h : Filling own inv σ₀ ι₀ {.root} f a σ ι) (b : ℕ) :
    dataSector σ.store (ι.table .root) b = ι.sector (.data b) :=
  h.indexed.nodeSector_eq (fun _ _ => rfl) (fun _ _ _ => rfl) (.data b)

theorem allocateBlocks_fills (huse : InUse fm held σ) (hd : Sound fm.sectors σ root d) (blocks : ℕ) :
    Returns (allocateBlocksWith (bitmapWrite held) d blocks) σ fun r σ' => ∃ allocated f a ι,
      Fills fm.sectors (FreeMapFile fm held) σ (indexOf σ.store root d) capacity blocks r.1 r.2
        allocated f a σ' ι := by
  have hroot : (indexOf σ.store root d).table .root = d := indexOf_table_root
  rw [← hroot]
  exact allocateBlocksWith_fills (bitmapServes fm held) huse.isOpen hd huse.reserved huse.file

theorem freeBlocks_empties (huse : InUse fm held σ) (hd : Sound fm.sectors σ root d) (blocks : ℕ) :
    Returns (freeBlocksWith (bitmapWrite held) d blocks) σ fun d' σ' => ∃ freed f g ι,
      Empties fm.sectors (FreeMapFile fm held) σ (indexOf σ.store root d) capacity blocks d' freed
        f g σ' ι ∧
        (blocks ≤ freed → (f ≤ 140 → ι.sector .indirect = nodeSector σ.store root d .indirect) ∧
          ι.sector .doubly = nodeSector σ.store root d .doubly) ∧
        (freed < blocks → ∀ s, s ≠ .root → ¬ι.Has s) := by
  have hroot : (indexOf σ.store root d).table .root = d := indexOf_table_root
  rw [← hroot]
  refine (freeBlocksWith_empties (bitmapWrites fm held) huse.isOpen hd huse.file).mono fun d' σ' h => ?_
  obtain ⟨freed, f, g, ι, he, hkept, hgone, -⟩ := h
  exact ⟨freed, f, g, ι, he, hkept, hgone⟩

/-- **`allocate_blocks`** that returns true has added the blocks it was asked for if and only if
there are as many empty entries. -/
theorem allocateBlocks_adds (huse : InUse fm none σ) (hd : Sound fm.sectors σ root d)
    (hrun : (allocateBlocks d blocks).run σ = some ((true, d'), σ')) :
    Adds blocks σ d σ' d' ↔ blocks ≤ (emptyEntries σ.store d capacity).card := by
  obtain ⟨allocated, f, a, ι, h⟩ := (allocateBlocks_fills huse hd blocks).of_run hrun
  dsimp only at h
  obtain ⟨hf, -, hend⟩ := h.done
  have hcount := h.stops.count
  have hle := h.stops.le
  have hhi := h.stops.le_hi
  have hd' : ∀ b, dataSector σ'.store d' b = ι.sector (.data b) := by
    intro b
    rw [h.inode]
    exact hf.dataSector_eq b
  have hempty : ∀ m, emptyEntries σ.store d m = (indexOf σ.store root d).empties m := fun _ => rfl
  have hnew : ((Finset.range capacity).filter fun b =>
      dataSector σ.store d b = 0 ∧ dataSector σ'.store d' b ≠ 0) =
        (indexOf σ.store root d).empties f := by
    ext b
    rw [Finset.mem_filter, Finset.mem_range, hd', ← hf.filled_iff]
    refine ⟨fun hb => hb.2, fun hb => ⟨?_, hb⟩⟩
    by_contra hge
    exact hb.2 (hf.indexed.bounded (not_lt.1 hge))
  have hcard := Finset.card_le_card ((indexOf σ.store root d).empties_mono hhi)
  rw [hempty]
  constructor
  · intro hadds
    have := hadds.count
    rw [hnew] at this
    omega
  · intro hroom
    refine ⟨fun b hb => ?_, fun b hb hb' => ?_, ?_⟩
    · rw [hd']
      exact hf.keep (s := .data b) (Index.has_data.2 hb)
    · rw [hd'] at hb' ⊢
      have hhas : ι.Has (.data b) := Index.has_data.2 hb'
      exact ⟨hf.fresh hhas fun hhas₀ => Index.has_data.1 hhas₀ hb, hf.indexed.taken hhas⟩
    · rw [hnew]
      rcases hend with rfl | hge
      · omega
      · omega

/-! ### `inode_create` and `inode_resize` -/

/-- The inode of an index, stored. -/
theorem Indexed.stored_eq {own : Set BlockSector} {ι : Index} (h : Indexed own {.root} σ ι)
    (hroot : ι.sector .root = root)
    (hword : ∀ i : Fin 128, i.val < 14 → d.word i = (ι.table .root).word i) (s : Slot) :
    nodeSector (Function.update σ.store root d) root (Function.update σ.store root d root) s =
      ι.sector s := by
  subst hroot
  rw [Function.update_self]
  refine h.nodeSector_eq hword (fun {s} _ hs hhas => ?_) s
  exact Function.update_of_ne (fun he => hs (h.distinct hhas ι.has_root he)) _ _

/-- An inode whose blocks below `⌈n/512⌉` are those of the index `ι`, stored with length `n`. -/
theorem maps_iff {own : Set BlockSector} {ι : Index} (h : Indexed own {.root} σ ι)
    (hroot : ι.sector .root = root) {n : ℕ}
    (hword : ∀ i : Fin 128, i.val < 14 → d.word i = (ι.table .root).word i) (hlen : d.length = n)
    (hstore : σ'.store = Function.update σ.store root d) (hmap : σ'.freeMap = σ.freeMap) :
    (∀ pos < n, Maps σ' root pos) ↔ ∀ b < (n + 511) / 512, ι.sector (.data b) ≠ 0 := by
  have hinode : σ'.store root = d := by rw [hstore, Function.update_self]
  have hsector : ∀ b, dataSector σ'.store (σ'.store root) b = ι.sector (.data b) := by
    intro b
    rw [hstore]
    exact h.stored_eq hroot hword (.data b)
  have hmaps : ∀ pos < n, (Maps σ' root pos ↔ ι.sector (.data (pos / 512)) ≠ 0) := by
    intro pos hpos
    have hlt : ((pos : ℕ) : ℤ) < (σ'.store root).length := by
      rw [hinode, hlen]
      exact Int.ofNat_lt.2 hpos
    unfold Maps byteToSector inodeLength readSector
    rw [bind_assoc, bind_assoc, returns_get_bind, pure_bind, pure_bind, if_pos hlt, returns_get_bind,
      hsector]
    constructor
    · rintro ⟨sector, σ₂, -, rfl, hne, -⟩
      exact hne
    · intro hne
      have hpath : indexPath σ'.store root (pos / 512) =
          some (nodeSector σ'.store root (σ'.store root) (.data (pos / 512))) :=
        indexPath_nodeSector (by rw [nodeSector_data, hsector]; exact hne)
      rw [nodeSector_data, hsector] at hpath
      rw [show pos / blockSectorSize = pos / 512 from rfl, hpath]
      dsimp only
      rw [returns_pure, hmap]
      exact ⟨rfl, hne, h.taken (Index.has_data.2 hne)⟩
  constructor
  · intro hall b hb
    have hpos := (hmaps (512 * b) (by omega)).1 (hall _ (by omega))
    rwa [Nat.mul_div_cancel_left b (by norm_num)] at hpos
  · intro hall pos hpos
    exact (hmaps pos hpos).2 (hall _ (by omega))

/-- A request for memory changes no sector. -/
theorem Indexed.shift {own : Set BlockSector} {buf : Set Slot} {ι : Index}
    (h : Indexed own buf σ ι) : Indexed own buf σ.shift ι :=
  h.congr (fun _ _ _ => rfl) h.taken rfl

theorem InUse.shift (h : InUse fm held σ) : InUse fm held σ.shift :=
  ⟨(bitmapWrites fm held).stable h.file (same_shift σ) fun _ _ => rfl, h.isOpen,
    ⟨h.reserved.zero, h.reserved.own⟩⟩

/-- An inode none of whose entries is set has no node but itself. -/
theorem nodeSector_of_zero {store : BlockSector → Sector}
    (hd : ∀ i : Fin 128, i.val < 14 → d.word i = 0) {s : Slot} (hs : s ≠ .root) :
    nodeSector store root d s = 0 := by
  have hind : d.indirect = 0 := hd 12 (by decide)
  have hdbl : d.doublyIndirect = 0 := hd 13 (by decide)
  cases s with
  | root => exact absurd rfl hs
  | indirect => exact hind
  | doubly => exact hdbl
  | table i => exact if_pos hdbl
  | data b =>
    rw [nodeSector]
    split_ifs with h₁ h₂ h₃
    · exact hd _ (by show b < 14; omega)
    · exact if_pos hind
    · exact if_pos (if_pos hdbl)
    · rfl

theorem sound_new {own : Set BlockSector} (hd : ∀ i : Fin 128, i.val < 14 → d.word i = 0)
    (htaken : σ.freeMap.bits root.toNat = true) (hrange : root.toNat < σ.freeMap.bitCnt)
    (hown : root ∉ own) : Sound own σ root d := by
  have hroot : ∀ {s}, (indexOf σ.store root d).Has s → s = .root := by
    intro s hs
    by_contra hne
    exact (hs.resolve_left hne) (nodeSector_of_zero hd hne)
  refine indexed_indexOf (fun hs hs' _ => ?_) (fun hs => ?_) (fun hs => ?_) fun hs => ?_
  · rw [hroot hs, hroot hs']
  · rw [hroot hs]
    exact htaken
  · rw [hroot hs]
    exact hrange
  · rw [hroot hs]
    exact hown

/-- **`inode_create`** that returns true has mapped every offset below the length if and only if
the index has entries for it. -/
theorem inodeCreate_maps (huse : InUse fm none σ) (htaken : σ.freeMap.bits root.toNat = true)
    (hrange : root.toNat < σ.freeMap.bitCnt) (hown : root ∉ fm.sectors) {n : ℕ} (hn : n < 2 ^ 31) :
    Returns (inodeCreate root n) σ fun ok σ' =>
      ok = true → ((∀ pos < n, Maps σ' root pos) ↔ n ≤ 512 * capacity) := by
  have hcapacity : capacity = 16524 := rfl
  have hsound : Sound fm.sectors σ.shift root (newInodeDisk n false) :=
    sound_new (fun i hi => word_newInodeDisk _ _ hi) htaken hrange hown
  unfold inodeCreate createInodeWith
  rw [if_neg (Int.not_lt.2 (Int.natCast_nonneg n)), returns_bind_of_run (run_alloc σ)]
  split_ifs with hmem
  · rw [returns_pure]
    exact fun hok => absurd hok (by simp)
  refine (allocateBlocks_fills huse.shift hsound (bytesToSectors n)).seq fun r σ₁ h₁ => ?_
  obtain ⟨allocated, f, a, ι, h⟩ := h₁
  obtain ⟨ok, d⟩ := r
  dsimp only at h ⊢
  cases ok with
  | false =>
    rw [if_pos rfl, returns_pure]
    exact fun hok => absurd hok (by simp)
  | true =>
    rw [if_neg (by simp)]
    unfold writeSector
    rw [returns_modify_bind, returns_pure]
    intro _
    obtain ⟨hf, -, hend⟩ := h.done
    have hroot : ι.sector .root = root := hf.keep (Index.has_root _)
    have hlen : d.length = n := by
      rw [h.inode, Sector.length_congr fun j hj => hf.tail j hj, indexOf_table_root,
        length_newInodeDisk false hn]
    have hle := h.stops.le
    rw [h.stops.count] at hend hle
    have hmaps : (∀ pos < n, Maps { σ₁ with store := Function.update σ₁.store root d } root pos) ↔
        ∀ b < (n + 511) / 512, ι.sector (.data b) ≠ 0 :=
      maps_iff hf.indexed hroot (fun i _ => by rw [h.inode]) hlen rfl rfl
    rw [hmaps, hf.full_iff hend hle ((n + 511) / 512)]
    have hcard := Finset.card_filter_le (Finset.range ((n + 511) / 512)) fun b =>
      (indexOf σ.shift.store root (newInodeDisk n false)).sector (.data b) = 0
    rw [Finset.card_range] at hcard
    constructor
    · rintro ⟨hcap, -⟩
      omega
    · intro hcap
      refine ⟨by omega, hcard.trans ?_⟩
      rw [bytesToSectors_of_lt (by omega)]

/-- What has to hold for `inode_resize` to give every offset below `newSize` a block. -/
def Provides (σ : FsState) (root : BlockSector) (newSize : ℤ) : Prop :=
  newSize ≤ 0 ∨ newSize ≤ 512 * capacity ∧
    bytesToSectors (σ.store root).length ≤ bytesToSectors newSize ∧
    (emptyEntries σ.store (σ.store root) (bytesToSectors newSize)).card ≤
      bytesToSectors newSize - bytesToSectors (σ.store root).length

/-- **`inode_resize`** that returns true has mapped every offset below the new size if and only if
the file was not to be shorter, the index has entries for it, and no more of them were empty than
blocks were missing. -/
theorem inodeResize_maps (huse : InUse fm held σ) (hd : Sound fm.sectors σ root (σ.store root))
    {newSize : ℤ} (hn : newSize < 2 ^ 31) : Ensures (inodeResize held root newSize) σ fun ok σ' =>
      ok = true → ((∀ pos : ℕ, (pos : ℤ) < newSize → Maps σ' root pos) ↔ Provides σ root newSize) := by
  have hcapacity : capacity = 16524 := rfl
  have hsound : Indexed fm.sectors {.root} σ.shift (indexOf σ.store root (σ.store root)) := hd.shift
  have hroot₀ : (indexOf σ.store root (σ.store root)).table .root = σ.store root := indexOf_table_root
  have hempty : ∀ m, emptyEntries σ.store (σ.store root) m =
      (indexOf σ.store root (σ.store root)).empties m := fun _ => rfl
  have hsector : (indexOf σ.store root (σ.store root)).sector .root = root := rfl
  unfold Provides
  rw [hempty]
  set ι₀ := indexOf σ.store root (σ.store root)
  -- what is left to show once the inode is stored
  have hstored : ∀ {σ₁ : FsState} {ι : Index} {d : Sector}, Indexed fm.sectors {.root} σ₁ ι →
      ι.sector .root = root → d = ι.table .root →
      (∀ n : ℕ, newSize = n → 0 < n → ((∀ b < (n + 511) / 512, ι.sector (.data b) ≠ 0) ↔
        n ≤ 512 * capacity ∧ bytesToSectors (σ.store root).length ≤ bytesToSectors n ∧
          (ι₀.empties (bytesToSectors n)).card ≤
            bytesToSectors n - bytesToSectors (σ.store root).length)) →
      Ensures (setDiskLength root d newSize) σ₁ fun ok σ' => ok = true →
        ((∀ pos : ℕ, (pos : ℤ) < newSize → Maps σ' root pos) ↔ newSize ≤ 0 ∨
          newSize ≤ 512 * capacity ∧ bytesToSectors (σ.store root).length ≤ bytesToSectors newSize ∧
            (ι₀.empties (bytesToSectors newSize)).card ≤
              bytesToSectors newSize - bytesToSectors (σ.store root).length) := by
    intro σ₁ ι d hι hroot hinode hiff
    unfold setDiskLength writeSector
    rw [ensures_modify_bind]
    refine ensures_pure fun _ => ?_
    rcases le_or_gt newSize 0 with hneg | hpos
    · refine ⟨fun _ => .inl hneg, fun _ pos hlt => ?_⟩
      omega
    · obtain ⟨n, rfl⟩ := Int.eq_ofNat_of_zero_le hpos.le
      have hn' : n < 2 ^ 31 := by omega
      have hmaps : (∀ pos < n, Maps { σ₁ with store := Function.update σ₁.store root (d.setLength n) }
          root pos) ↔ ∀ b < (n + 511) / 512, ι.sector (.data b) ≠ 0 :=
        maps_iff hι hroot (fun i hi => by rw [Sector.word_setLength _ _ hi, hinode])
          (Sector.length_setLength d hn') rfl rfl
      have hcast : (n : ℤ) ≤ 512 * (capacity : ℤ) ↔ n ≤ 512 * capacity := by omega
      rw [hcast, ← hiff n rfl (by omega), ← hmaps]
      refine ⟨fun h => .inr fun pos hlt => h pos (by omega), fun h pos hlt => ?_⟩
      rcases h with h | h
      · omega
      · exact h pos (by omega)
  unfold inodeResize inodeResizeWith
  rw [ensures_bind_of_run (run_alloc σ)]
  split_ifs with hmem
  · exact ensures_pure fun hok => absurd hok (by simp)
  dsimp only [readSector]
  rw [bind_assoc, ensures_get_bind, pure_bind]
  have hread : σ.shift.store root = ι₀.table .root := hroot₀.symm
  have hlength : (ι₀.table .root).length = (σ.store root).length := by rw [hroot₀]
  rw [hread, hlength]
  split_ifs with hless hmore
  · -- the file is made shorter, and its first block goes
    refine (freeBlocksWith_empties (bitmapWrites fm held) huse.shift.isOpen hsound
      huse.shift.file).ensures.seq fun d σ₁ h₁ => ?_
    obtain ⟨freed, f, g, ι, h, -, -⟩ := h₁
    have hroot : ι.sector .root = root := h.emptying.keep (Index.has_root _)
    refine hstored h.emptying.indexed hroot h.inode fun n hn hpos => ?_
    subst hn
    have hf : 0 < f := by
      by_contra hzero
      obtain rfl : f = 0 := by omega
      have hcount := h.frees.count
      have hnone : (ι₀.filled 0).card = 0 := rfl
      rcases h.frees.done with hf | hge
      · omega
      · omega
    constructor
    · intro hall
      exact absurd (h.emptying.low 0 (hf.trans_le h.emptying.le)) (hall 0 (by omega))
    · rintro ⟨-, hle, -⟩
      omega
  · refine (allocateBlocksWith_fills (bitmapServes fm held) huse.shift.isOpen hsound
      huse.shift.reserved huse.shift.file).ensures.seq fun r σ₁ h₁ => ?_
    obtain ⟨allocated, f, a, ι, h⟩ := h₁
    obtain ⟨ok, d⟩ := r
    dsimp only at h ⊢
    cases ok with
    | false =>
      rw [if_pos rfl]
      exact ensures_bind_pure fun _ hok => absurd hok (by simp)
    | true =>
      rw [if_neg (by simp)]
      obtain ⟨hf, -, hend⟩ := h.done
      have hle := h.stops.le
      rw [h.stops.count] at hend hle
      have hroot : ι.sector .root = root := hf.keep (Index.has_root _)
      refine hstored hf.indexed hroot h.inode fun n hn hpos => ?_
      subst hn
      rw [hf.full_iff hend hle ((n + 511) / 512)]
      constructor
      · rintro ⟨hcap, hcard⟩
        have hcap' : n ≤ 512 * capacity := by omega
        rw [bytesToSectors_of_lt (by omega)] at hmore hcard ⊢
        exact ⟨hcap', hmore.le, hcard⟩
      · rintro ⟨hcap, -, hcard⟩
        rw [bytesToSectors_of_lt (by omega)] at hcard ⊢
        exact ⟨by omega, hcard⟩
  · refine hstored hsound rfl rfl fun n hn hpos => ?_
    subst hn
    have hfilling := Filling.refl hsound huse.shift.reserved huse.shift.file
    have hsame : bytesToSectors (σ.store root).length = bytesToSectors n := by omega
    rw [hfilling.full_iff (.inr (Nat.zero_le _)) (Nat.le_refl 0) ((n + 511) / 512), hsame, Nat.sub_self]
    constructor
    · rintro ⟨hcap, hcard⟩
      have hcap' : n ≤ 512 * capacity := by omega
      rw [bytesToSectors_of_lt (by omega)]
      exact ⟨hcap', le_rfl, hcard⟩
    · rintro ⟨hcap, -, hcard⟩
      rw [bytesToSectors_of_lt (by omega)] at hcard
      exact ⟨by omega, hcard⟩

end Claims

/-- **What success means.**  `allocate_blocks` that returns true has added exactly the blocks it was
asked for if and only if there are as many empty entries; `inode_create` and `inode_resize` that
return true have mapped every offset below the length they set if and only if the index has entries
for it and, for `inode_resize`, the file was not to be shorter and no more entries below the new
size were empty than blocks were missing. -/
theorem success_iff {fm : Tree} {σ σ' : FsState} {root : BlockSector} :
    (∀ {d d' : Sector} {blocks : ℕ}, InUse fm none σ → Sound fm.sectors σ root d →
      (allocateBlocks d blocks).run σ = some ((true, d'), σ') →
      (Adds blocks σ d σ' d' ↔ blocks ≤ (emptyEntries σ.store d capacity).card)) ∧
    (∀ {n : ℕ}, InUse fm none σ → σ.freeMap.bits root.toNat = true →
      root.toNat < σ.freeMap.bitCnt → root ∉ fm.sectors → n < 2 ^ 31 →
      (inodeCreate root n).run σ = some (true, σ') →
      ((∀ pos < n, Maps σ' root pos) ↔ n ≤ 512 * capacity)) ∧
    ∀ {held : Option InodePtr} {newSize : ℤ}, InUse fm held σ →
      Sound fm.sectors σ root (σ.store root) → newSize < 2 ^ 31 →
      (inodeResize held root newSize).run σ = some (true, σ') →
      ((∀ pos : ℕ, (pos : ℤ) < newSize → Maps σ' root pos) ↔ Provides σ root newSize) := by
  refine ⟨fun huse hd hrun => allocateBlocks_adds huse hd hrun,
    fun huse htaken hrange hown hn hrun => ?_, fun huse hd hn hrun => ?_⟩
  · exact (inodeCreate_maps huse htaken hrange hown hn).of_run hrun rfl
  · exact inodeResize_maps huse hd hn true σ' hrun rfl

/-- A formatted device of `32768` sectors. -/
theorem exists_inUse : ∃ fm σ, InUse fm none σ ∧ σ.Memory ∧ 32000 ≤ σ.freeMap.free.card ∧
    σ.freeMap.bits (1 : BlockSector).toNat = true ∧ (1 : BlockSector).toNat < σ.freeMap.bitCnt ∧
    (1 : BlockSector) ∉ fm.sectors := by
  have hsize : (32768 : BlockSector).toNat = 32768 := rfl
  have hfresh : Returns freeMapCreate (fresh 32768 fun _ => Sector.zero) fun _ σ' =>
      ∃ fm, Formatted fm 0 (fresh 32768 fun _ => Sector.zero) σ' ∧
        (32768 : BlockSector).toNat ≤ σ'.freeMap.free.card + (32768 : BlockSector).toNat / 4096 + 134 :=
    fresh_formatted (by decide) (by decide)
  obtain ⟨-, σ, -, fm, hformatted, hfree⟩ := hfresh
  have hcard : σ.freeMap.free.card ≤ σ.freeMap.bitCnt :=
    (Finset.card_filter_le _ _).trans (Finset.card_range _).le
  have hone : (1 : BlockSector).toNat = 1 := rfl
  refine ⟨fm, σ, ⟨hformatted.file, by simp [hformatted.freeMapFile], hformatted.reserved⟩,
    hformatted.memory, by omega, hformatted.keep 1 ((bits_fresh 1).2 (.inl rfl)), by omega, fun hmem => ?_⟩
  rcases hformatted.sectors 1 hmem with hzero | hnot
  · exact absurd hzero (by decide)
  · have hbit := (Bitmap.mem_free.1 hnot).2
    rw [hone, (bits_fresh 1).2 (.inl rfl)] at hbit
    cases hbit

/-- `13` blocks for an empty inode. -/
theorem success_iff_thirteen : ∃ σ d' σ', (allocateBlocks Sector.zero 13).run σ = some ((true, d'), σ') ∧
    Adds 13 σ Sector.zero σ' d' := by
  obtain ⟨fm, σ, huse, hmem, hfree, htaken, hrange, hown⟩ := exists_inUse
  have hzero : ∀ i : Fin 128, i.val < 14 → Sector.zero.word i = 0 := fun i _ => Sector.word_zero i
  have hslots := slots_le 13
  have henough : Enough σ 0 (0 + 13) := ⟨hmem, by rw [Nat.zero_add]; omega⟩
  obtain ⟨s, σ', hrun, -⟩ := (Between.new huse.file huse.reserved htaken hown hzero).allocates henough
  refine ⟨σ, s.1, σ', hrun, (success_iff.1 huse (sound_new hzero htaken hrange hown) hrun).2 ?_⟩
  have hall : emptyEntries σ.store Sector.zero capacity = Finset.range capacity := by
    refine Finset.filter_true_of_mem fun b _ => ?_
    show nodeSector σ.store 0 Sector.zero (.data b) = 0
    exact nodeSector_of_zero hzero (by simp)
  rw [hall, Finset.card_range]
  decide

/-- `inode_create` for a file of `16525` sectors: it returns true, and the last one has no block. -/
theorem success_fails : ∃ σ σ', (inodeCreate 1 (512 * 16525 : ℕ)).run σ = some (true, σ') ∧
    ¬∀ pos < 512 * 16525, Maps σ' 1 pos := by
  obtain ⟨fm, σ, huse, hmem, hfree, htaken, hrange, hown⟩ := exists_inUse
  have hslots := slots_le 16525
  have hsectors : bytesToSectors (512 * 16525 : ℕ) = 16525 := bytesToSectors_of_lt (by norm_num)
  have hlt : 512 * 16525 < 2 ^ 31 := by norm_num
  obtain ⟨ok, σ', hrun, hok⟩ := createInodeWith_returns (bitmapWrites fm none) huse.file huse.reserved
    htaken hown false hlt
  rw [hsectors] at hok
  obtain ⟨rfl, -⟩ | ⟨-, hno, -⟩ := hok
  · refine ⟨σ, σ', hrun, fun hall => ?_⟩
    have hle := ((inodeCreate_maps huse htaken hrange hown (by norm_num)).of_run hrun rfl).1 hall
    unfold capacity at hle
    omega
  · exact absurd ⟨hmem, by omega⟩ hno

end Filesys
end CS162

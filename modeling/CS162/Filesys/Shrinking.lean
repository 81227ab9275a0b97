/-
# Making a file shorter

`projects1-3/src/filesys/inode.c`, lines 190-308 and 705-740.

`inode_resize` to a smaller size takes the difference of the numbers of blocks, and
`free_blocks` frees that many from the front of the file.  So it does what it should
where no block goes, and where all of them go and no index block is left behind:
`free_blocks` releases the indirect and the doubly indirect block only where it has
not found as many data blocks as it was asked for (`shrunk_iff`).
-/

import CS162.Filesys.Built

namespace CS162
namespace Filesys

open CS162.Basis

/-- What `byte_to_sector` returns for offset `pos` of the inode at `root`. -/
def mappedAt (σ : FsState) (root : BlockSector) (pos : ℕ) : Option BlockSector :=
  ((byteToSector root pos).run σ).map Prod.fst

/-- The sector of a node of the inode at `root`. -/
def nodeAt (σ : FsState) (root : BlockSector) (s : Slot) : BlockSector :=
  nodeSector σ.store root (σ.store root) s

/-- What `inode_resize` to a smaller size should do: it returns true, the bytes that are left are
mapped as before, and of the nodes whose data blocks begin at `newSize` or later the sectors are
released, those and no others, and the entries cleared. -/
structure Shrunk (σ : FsState) (root : BlockSector) (newSize : ℤ) (ok : Bool) (σ' : FsState) :
    Prop where
  returned : ok = true
  keep : ∀ pos : ℕ, (pos : ℤ) < newSize → mappedAt σ' root pos = mappedAt σ root pos
  freed : ∀ n, σ'.freeMap.bits n = true ↔ σ.freeMap.bits n = true ∧
    ¬∃ s : Slot, s ≠ .root ∧ newSize ≤ 512 * s.first ∧ nodeAt σ root s ≠ 0 ∧
      (nodeAt σ root s).toNat = n
  cleared : ∀ s : Slot, s ≠ .root → newSize ≤ 512 * s.first → nodeAt σ' root s = 0

/-! ### Sizes -/

theorem bytesToSectors_nonpos {n : ℤ} (h : -1023 < n) (h' : n ≤ 0) : bytesToSectors n = 0 := by
  rcases le_or_gt 0 (n + 511) with hge | hneg
  · obtain ⟨m, hm⟩ := Int.eq_ofNat_of_zero_le hge
    have hm' : m < 2 ^ 31 := by omega
    unfold bytesToSectors
    rw [hm, wrap32_of_lt hm', Int.tdiv_eq_ediv_of_nonneg (Int.natCast_nonneg _)]
    omega
  · obtain ⟨m, hm⟩ := Int.eq_ofNat_of_zero_le (show 0 ≤ -(n + 511) by omega)
    have hwrap : wrap32 (n + 511) = -(m : ℤ) := by
      rw [show n + 511 = -(m : ℤ) by omega]
      exact wrap32_neg (by omega) (by omega)
    rw [bytesToSectors_of_neg hwrap (by omega), if_pos (by omega)]

/-- A size that is further below `0` asks for more sectors than any other. -/
theorem le_bytesToSectors_of_neg {n : ℤ} (h : n ≤ -1023) (h' : -2 ^ 31 ≤ n) {m : ℕ}
    (hm : m < 2 ^ 31) : 0 < bytesToSectors n ∧ bytesToSectors m ≤ bytesToSectors n := by
  obtain ⟨k, hk⟩ := Int.eq_ofNat_of_zero_le (show 0 ≤ -(n + 511) by omega)
  have hwrap : wrap32 (n + 511) = -(k : ℤ) := by
    rw [show n + 511 = -(k : ℤ) by omega]
    exact wrap32_neg (by omega) (by omega)
  rw [bytesToSectors_of_neg hwrap (by omega), if_neg (by omega)]
  rcases Nat.lt_or_ge (m + 511) (2 ^ 31) with hlt | hge
  · rw [bytesToSectors_of_lt hlt]
    omega
  · rw [bytesToSectors_of_neg (wrap32_add_of_ge hge hm) (by omega), if_neg (by omega)]
    omega

section Shrink

variable {fm : Tree} {held : Option InodePtr} {σ σ' : FsState} {t : Tree} {len : ℕ} {newSize : ℤ}

theorem mappedAt_eq {root : BlockSector} {pos : ℕ} (h : (pos : ℤ) < (σ.store root).length) :
    mappedAt σ root pos = indexPath σ.store root (pos / 512) := by
  have hlen : (inodeLength root).run σ = some ((σ.store root).length, σ) := rfl
  have hget : (get : Kernel FsState).run σ = some (σ, σ) := rfl
  have hdiv : pos / blockSectorSize = pos / 512 := rfl
  unfold mappedAt byteToSector
  rw [run_bind_of_run hlen, if_pos h, run_bind_of_run hget, hdiv]
  cases indexPath σ.store root (pos / 512) with
  | none => rfl
  | some sec => rfl

theorem indexPath_of_le {store : BlockSector → Sector} {root : BlockSector} {b : ℕ}
    (h : capacity ≤ b) : indexPath store root b = none := by
  unfold capacity at h
  have h₁ : ¬b < directBlocks := by
    unfold directBlocks
    omega
  have h₂ : ¬b < directBlocks + indirectBlocks := by
    unfold directBlocks indirectBlocks
    omega
  have h₃ : ¬(b - (directBlocks + indirectBlocks)) / indirectBlocks < 128 := by
    unfold directBlocks indirectBlocks
    omega
  unfold indexPath
  rw [dif_neg h₁, dif_neg h₂, dif_neg h₃]

/-- Offset `0` of a file with blocks. -/
theorem Built.mappedAt_zero (h : Built fm σ t len) (hlen : 0 < len) :
    mappedAt σ (t.sector .root) 0 = some (nodeAt σ (t.sector .root) (.data 0)) := by
  have hread : σ.store (t.sector .root) = t.table .root := h.store_root
  rw [mappedAt_eq (by rw [hread, h.length]; exact Int.ofNat_lt.2 hlen), Nat.zero_div,
    indexPath_direct _ _ (by norm_num)]
  rfl

theorem Built.nodeAt_ne_zero (h : Built fm σ t len) {s : Slot} (hs : s ≠ .root) :
    nodeAt σ (t.sector .root) s ≠ 0 ↔ s.first < t.blocks := h.nodeSector_ne_zero hs

theorem Built.card_filled (h : Built fm σ t len) {f : ℕ} :
    ((indexOf σ.store (t.sector .root) (σ.store (t.sector .root))).filled f).card =
      min f t.blocks := by
  have hfilled : (indexOf σ.store (t.sector .root) (σ.store (t.sector .root))).filled f =
      Finset.range (min f t.blocks) := by
    ext b
    have hb : (indexOf σ.store (t.sector .root) (σ.store (t.sector .root))).sector (.data b) ≠ 0 ↔
        b < t.blocks := h.nodeAt_ne_zero (s := .data b) (by simp)
    rw [Index.filled, Finset.mem_filter, Finset.mem_range, Finset.mem_range, hb]
    omega
  rw [hfilled, Finset.card_range]

/-! ### The three ways through `inode_resize` -/

/-- Where `free_blocks` has been called. -/
theorem inodeResize_frees (huse : InUse fm held σ) (h : Built fm σ t len) (hmem : σ.memory 0 = true)
    (hless : bytesToSectors newSize < bytesToSectors len) :
    Returns (inodeResize held (t.sector .root) newSize) σ fun ok σ' => ok = true ∧
      ∃ freed f g ι d σ₁, Empties fm.sectors (FreeMapFile fm held) σ.shift
          (indexOf σ.store (t.sector .root) (σ.store (t.sector .root))) capacity
          (bytesToSectors len - bytesToSectors newSize) d freed f g σ₁ ι ∧
        (bytesToSectors len - bytesToSectors newSize ≤ freed →
          (f ≤ 140 → ι.sector .indirect = nodeAt σ (t.sector .root) .indirect) ∧
            ι.sector .doubly = nodeAt σ (t.sector .root) .doubly) ∧
        (freed < bytesToSectors len - bytesToSectors newSize → ∀ s, s ≠ .root → ¬ι.Has s) ∧
        σ' = { σ₁ with store := Function.update σ₁.store (t.sector .root) (d.setLength newSize) } ∧
        ∀ s, nodeAt σ' (t.sector .root) s = ι.sector s := by
  have hread : σ.shift.store (t.sector .root) = t.table .root := h.store_root
  have htable : t.table .root = σ.store (t.sector .root) := h.store_root.symm
  unfold inodeResize inodeResizeWith
  rw [returns_bind_of_run (run_alloc σ), if_neg (by simp [hmem])]
  dsimp only [readSector]
  rw [bind_assoc, returns_get_bind, pure_bind, hread, h.length, if_pos hless, htable]
  refine (freeBlocks_empties huse.shift h.sound.shift _).seq fun d σ₁ h₁ => ?_
  obtain ⟨freed, f, g, ι, he, hkept, hgone⟩ := h₁
  have hroot : ι.sector .root = t.sector .root := he.emptying.keep (Index.has_root _)
  unfold setDiskLength writeSector
  rw [returns_modify_bind, returns_pure]
  refine ⟨rfl, freed, f, g, ι, d, σ₁, he, hkept, hgone, rfl, fun s => ?_⟩
  refine he.emptying.indexed.stored_eq hroot (fun i hi => ?_) s
  rw [Sector.word_setLength _ _ hi, he.inode]

/-- Where `allocate_blocks` has been called, and has returned true. -/
theorem inodeResize_fills (huse : InUse fm held σ) (h : Built fm σ t len)
    (hmore : bytesToSectors len < bytesToSectors newSize) :
    Ensures (inodeResize held (t.sector .root) newSize) σ fun ok σ' => ok = true →
      ∃ f a ι σ₁, Filling fm.sectors (FreeMapFile fm held) σ.shift
          (indexOf σ.store (t.sector .root) (σ.store (t.sector .root))) {.root} f a σ₁ ι ∧
        (f = capacity ∨ bytesToSectors newSize - bytesToSectors len ≤
          ((indexOf σ.store (t.sector .root) (σ.store (t.sector .root))).empties f).card) ∧
        ∀ s, nodeAt σ' (t.sector .root) s = ι.sector s := by
  have hread : σ.shift.store (t.sector .root) = t.table .root := h.store_root
  have htable : t.table .root = σ.store (t.sector .root) := h.store_root.symm
  unfold inodeResize inodeResizeWith
  rw [ensures_bind_of_run (run_alloc σ)]
  split_ifs with hmem
  · exact ensures_pure fun hok => absurd hok (by simp)
  dsimp only [readSector]
  rw [bind_assoc, ensures_get_bind, pure_bind, hread, h.length, if_neg (by omega), if_pos hmore,
    htable]
  refine (allocateBlocks_fills huse.shift h.sound.shift
    (bytesToSectors newSize - bytesToSectors len)).ensures.seq fun r σ₁ h₁ => ?_
  obtain ⟨allocated, f, a, ι, hf⟩ := h₁
  obtain ⟨ok, d⟩ := r
  dsimp only at hf ⊢
  cases ok with
  | false =>
    rw [if_pos rfl]
    exact ensures_bind_pure fun _ hok => absurd hok (by simp)
  | true =>
    rw [if_neg (by simp)]
    obtain ⟨hfill, -, hend⟩ := hf.done
    have hroot : ι.sector .root = t.sector .root := hfill.keep (Index.has_root _)
    rw [hf.stops.count] at hend
    unfold setDiskLength writeSector
    rw [ensures_modify_bind]
    refine ensures_pure fun _ => ⟨f, a, ι, σ₁, hfill, hend, fun s => ?_⟩
    refine hfill.indexed.stored_eq hroot (fun i hi => ?_) s
    rw [Sector.word_setLength _ _ hi, hf.inode]

/-- Where the number of blocks stays. -/
theorem inodeResize_stays (h : Built fm σ t len) (hmem : σ.memory 0 = true)
    (hsame : bytesToSectors newSize = bytesToSectors len) :
    (inodeResize held (t.sector .root) newSize).run σ = some (true, { σ.shift with
      store := Function.update σ.store (t.sector .root) ((t.table .root).setLength newSize) }) := by
  have hread : (readSector (t.sector .root)).run σ.shift = some (t.table .root, σ.shift) := by
    rw [← h.store_root]
    rfl
  unfold inodeResize inodeResizeWith
  rw [run_bind_of_run (run_alloc σ), if_neg (by simp [hmem]), run_bind_of_run hread, h.length,
    if_neg (by omega), if_neg (by omega)]
  rfl

/-- Setting the length moves no node. -/
theorem Built.nodeAt_setLength (h : Built fm σ t len) (s : Slot) :
    nodeAt { σ.shift with
      store := Function.update σ.store (t.sector .root) ((t.table .root).setLength newSize) }
      (t.sector .root) s = t.index.sector s :=
  h.indexed.stored_eq (Tree.sector_index h.root_mem) (fun _ hi => Sector.word_setLength _ _ hi) s

/-! ### What it does -/

/-- **All blocks go, and nothing is left behind.** -/
theorem shrunk_of_gone (huse : InUse fm held σ) (h : Built fm σ t len) (hmem : σ.memory 0 = true)
    (hneg : newSize ≤ 0) (hzero : bytesToSectors newSize = 0) (hpos : 0 < bytesToSectors len)
    (hfit : bytesToSectors len ≤ 12 ∨ capacity < bytesToSectors len) :
    Returns (inodeResize held (t.sector .root) newSize) σ (Shrunk σ (t.sector .root) newSize) := by
  have hcapacity : capacity = 16524 := rfl
  refine (inodeResize_frees huse h hmem (by omega)).mono fun ok σ' h' => ?_
  obtain ⟨rfl, freed, f, g, ι, d, σ₁, he, -, hgone, hσ', hnode⟩ := h'
  have hmap : σ'.freeMap = σ₁.freeMap := by rw [hσ']
  rw [hzero, Nat.sub_zero] at he hgone
  have hupTo := h.upTo
  have hcount := he.frees.count
  have hhas : ∀ {s}, ι.Has s → s ∈ t.live := fun hs => h.has.1 (he.emptying.has hs)
  have hcap := h.capacity
  have hcard : freed ≤ t.blocks := by
    rw [hcount]
    exact h.card_filled.trans_le (Nat.min_le_right _ _)
  -- no block is lost
  have hlost : (∀ s, s ≠ .root → ¬ι.Has s) ∧ ∀ b, f ≤ b → b < g → t.blocks ≤ b := by
    rcases hfit with hle | hgt
    · have hblocks : t.blocks = bytesToSectors len := by omega
      have hf : t.blocks ≤ f := by
        rw [h.card_filled] at hcount
        rcases he.frees.done with hf | hge
        · exact hf ▸ h.capacity
        · omega
      refine ⟨fun s hs hhas' => ?_, fun b hb _ => hf.trans hb⟩
      have hlt := (h.mem_live hs).1 (hhas hhas')
      cases s with
      | root => exact hs rfl
      | data b => exact (Index.has_data.1 hhas') (he.emptying.low b (hlt.trans_le (hf.trans he.emptying.le)))
      | indirect =>
        have : 12 < t.blocks := hlt
        omega
      | doubly =>
        have : 140 < t.blocks := hlt
        omega
      | table i =>
        have : 140 + 128 * i.val < t.blocks := hlt
        omega
    · refine ⟨hgone (by omega), fun b hb hlt => ?_⟩
      have hgap := he.gap (by omega)
      omega
  refine ⟨rfl, fun pos hpos' => absurd hpos' (by omega), fun n => ?_, fun s hs _ => ?_⟩
  · rw [hmap, he.emptying.bits]
    refine and_congr_right fun _ => not_congr ⟨?_, ?_⟩
    · rintro ⟨s, hs, hno, -, rfl⟩
      have hroot : s ≠ .root := by
        rintro rfl
        exact hno ι.has_root
      exact ⟨s, hroot, hneg.trans (by omega), hs.resolve_left hroot, rfl⟩
    · rintro ⟨s, hroot, -, hne, rfl⟩
      refine ⟨s, .inr hne, hlost.1 s hroot, ?_, rfl⟩
      rintro b rfl ⟨hfb, hbg⟩
      have hlt := (h.nodeAt_ne_zero hroot).1 hne
      exact absurd (hlost.2 b hfb hbg) (not_le.2 hlt)
  · rw [hnode]
    by_contra hne
    exact hlost.1 s hs (.inr hne)

/-- **No block goes.** -/
theorem shrunk_of_same (h : Built fm σ t len) (hmem : σ.memory 0 = true) (hlt : newSize < len)
    (hlen : len < 2 ^ 31) (hge : -1023 < newSize) (hsame : bytesToSectors newSize = bytesToSectors len) :
    Returns (inodeResize held (t.sector .root) newSize) σ (Shrunk σ (t.sector .root) newSize) := by
  have hcapacity : capacity = 16524 := rfl
  have hupTo := h.upTo
  set σ' : FsState := { σ.shift with
    store := Function.update σ.store (t.sector .root) ((t.table .root).setLength newSize) }
  have hnode : ∀ s, nodeAt σ' (t.sector .root) s = t.index.sector s := h.nodeAt_setLength
  -- the blocks at `newSize` and later are none
  have hfirst : ∀ s : Slot, newSize ≤ 512 * s.first → t.blocks ≤ s.first := by
    intro s hs
    rcases le_or_gt newSize 0 with hneg | hpos
    · rw [bytesToSectors_nonpos hge hneg] at hsame
      omega
    · obtain ⟨m, rfl⟩ := Int.eq_ofNat_of_zero_le hpos.le
      rcases Nat.lt_or_ge (m + 511) (2 ^ 31) with hm | hm
      · rw [bytesToSectors_of_lt hm] at hsame
        omega
      · omega
  have hgone : ∀ s : Slot, s ≠ .root → newSize ≤ 512 * s.first → t.index.sector s = 0 := by
    intro s hs hle
    refine if_neg fun hlive => ?_
    exact absurd (hfirst s hle) (not_le.2 ((h.mem_live hs).1 hlive))
  refine ⟨true, σ', inodeResize_stays h hmem hsame, rfl, fun pos hpos => ?_, fun n => ?_,
    fun s hs hle => ?_⟩
  · have hread : σ.store (t.sector .root) = t.table .root := h.store_root
    have hread' : σ'.store (t.sector .root) = (t.table .root).setLength newSize :=
      Function.update_self ..
    obtain ⟨m, rfl⟩ := Int.eq_ofNat_of_zero_le (show 0 ≤ newSize by omega)
    rw [mappedAt_eq (by rw [hread', Sector.length_setLength _ (by omega)]; omega),
      mappedAt_eq (by rw [hread, h.length]; omega)]
    rcases Nat.lt_or_ge (pos / 512) t.blocks with hb | hb
    · have hne : nodeAt σ (t.sector .root) (.data (pos / 512)) ≠ 0 :=
        (h.nodeAt_ne_zero (by simp)).2 hb
      have heq : nodeAt σ' (t.sector .root) (.data (pos / 512)) =
          nodeAt σ (t.sector .root) (.data (pos / 512)) := (hnode _).trans (h.nodeSector_eq _).symm
      have hne' : nodeAt σ' (t.sector .root) (.data (pos / 512)) ≠ 0 := by
        rw [heq]
        exact hne
      have hpath : indexPath σ.store (t.sector .root) (pos / 512) =
          some (nodeAt σ (t.sector .root) (.data (pos / 512))) := indexPath_nodeSector hne
      have hpath' : indexPath σ'.store (t.sector .root) (pos / 512) =
          some (nodeAt σ' (t.sector .root) (.data (pos / 512))) := indexPath_nodeSector hne'
      rw [hpath, hpath', heq]
    · -- the offset is past the index
      have hcap : capacity ≤ pos / 512 := by
        by_contra hno
        rcases Nat.lt_or_ge (m + 511) (2 ^ 31) with hm | hm
        · rw [bytesToSectors_of_lt hm] at hsame
          omega
        · rw [← hsame, bytesToSectors_of_neg (wrap32_add_of_ge hm (by omega)) (by omega),
            if_neg (by omega)] at hupTo
          omega
      rw [indexPath_of_le hcap, indexPath_of_le hcap]
  · refine ⟨fun hn => ⟨hn, ?_⟩, fun hn => hn.1⟩
    rintro ⟨s, hs, hle, hne, -⟩
    refine hne ?_
    unfold nodeAt
    rw [h.nodeSector_eq]
    exact hgone s hs hle
  · rw [hnode]
    exact hgone s hs hle

/-- **Some blocks go**: the first one is among them. -/
theorem not_shrunk_of_cut (huse : InUse fm held σ) (h : Built fm σ t len) (hmem : σ.memory 0 = true)
    (hnew : 0 < newSize) (hlt : newSize < len) (hlen : len < 2 ^ 31)
    (hless : bytesToSectors newSize < bytesToSectors len) :
    ¬Returns (inodeResize held (t.sector .root) newSize) σ (Shrunk σ (t.sector .root) newSize) := by
  have hcapacity : capacity = 16524 := rfl
  have hupTo := h.upTo
  rintro ⟨ok, σ', hrun, hshrunk⟩
  obtain ⟨-, freed, f, g, ι, d, σ₁, he, -, -, hσ', hnode⟩ :=
    (inodeResize_frees huse h hmem hless).of_run hrun
  have hcount : freed = min f t.blocks := he.frees.count.trans h.card_filled
  have hpos : 0 < f := by
    rcases he.frees.done with hf | hf
    · omega
    · omega
  obtain ⟨m, rfl⟩ := Int.eq_ofNat_of_zero_le hnew.le
  have hlen' : (σ'.store (t.sector .root)).length = m := by
    have hstore : σ'.store (t.sector .root) = d.setLength m := by
      rw [hσ']
      exact Function.update_self ..
    rw [hstore, Sector.length_setLength _ (by omega)]
  have hkeep := hshrunk.keep 0 (by omega)
  rw [h.mappedAt_zero (by omega), mappedAt_eq (by rw [hlen']; omega), Nat.zero_div,
    indexPath_direct _ _ (by norm_num)] at hkeep
  have hzero : nodeAt σ' (t.sector .root) (.data 0) = 0 := by
    rw [hnode]
    exact he.emptying.low 0 (hpos.trans_le he.emptying.le)
  refine (h.nodeAt_ne_zero (s := .data 0) (by simp)).2 ?_ ((Option.some.inj hkeep).symm.trans hzero)
  show 0 < t.blocks
  omega

/-- **All blocks go**, and there are as many as `free_blocks` is asked for: the index block that it
was in is left. -/
theorem not_shrunk_of_left (huse : InUse fm held σ) (h : Built fm σ t len) (hmem : σ.memory 0 = true)
    (hneg : newSize ≤ 0) (hge : -1023 < newSize) (hmany : 512 * 12 < len)
    (hfit : len ≤ 512 * capacity) :
    ¬Returns (inodeResize held (t.sector .root) newSize) σ (Shrunk σ (t.sector .root) newSize) := by
  have hcapacity : capacity = 16524 := rfl
  have hupTo := h.upTo
  have hnew := bytesToSectors_nonpos hge hneg
  have hold : bytesToSectors len = (len + 511) / 512 := bytesToSectors_of_lt (by omega)
  rintro ⟨ok, σ', hrun, hshrunk⟩
  obtain ⟨-, freed, f, g, ι, d, σ₁, he, hkept, -, -, hnode⟩ :=
    (inodeResize_frees huse h hmem (by omega)).of_run hrun
  have hcount : freed = min f t.blocks := he.frees.count.trans h.card_filled
  have hle : bytesToSectors len - bytesToSectors newSize ≤ freed := by
    rcases he.frees.done with hf | hf
    · omega
    · exact hf
  obtain ⟨hindirect, hdoubly⟩ := hkept hle
  rcases Nat.lt_or_ge 140 t.blocks with hlarge | hsmall
  · have hcleared := hshrunk.cleared .doubly (by simp) (hneg.trans (by omega))
    rw [hnode, hdoubly] at hcleared
    exact (h.nodeAt_ne_zero (s := .doubly) (by simp)).2 hlarge hcleared
  · have hf : f ≤ 140 := by
      by_contra hno
      have hleast := he.frees.least 140 (not_le.1 hno)
      have hcard : ((indexOf σ.store (t.sector .root)
        (σ.store (t.sector .root))).filled 140).card = min 140 t.blocks := h.card_filled
      omega
    have hcleared := hshrunk.cleared .indirect (by simp) (hneg.trans (by omega))
    rw [hnode, hindirect hf] at hcleared
    refine (h.nodeAt_ne_zero (by simp)).2 ?_ hcleared
    show 12 < t.blocks
    omega

/-- A file of `0` sectors has no bytes. -/
theorem pos_of_bytesToSectors {n : ℕ} (hn : n < 2 ^ 31) : bytesToSectors n = 0 ↔ n = 0 := by
  rcases Nat.lt_or_ge (n + 511) (2 ^ 31) with hlt | hge
  · rw [bytesToSectors_of_lt hlt]
    omega
  · rw [bytesToSectors_of_neg (wrap32_add_of_ge hge hn) (by omega), if_neg (by omega)]
    omega

/-- **Making a file shorter.**  `inode_resize` keeps the front of the file and releases the rest if
and only if the request for memory is met and the number of blocks stays, or all of them go and they
are at most `12`, or more than the index has entries for; a size of `-1023` or less counts as one
that is larger. -/
theorem shrunk_iff (huse : InUse fm held σ) (h : Built fm σ t len) (hlt : newSize < len)
    (hlen : len < 2 ^ 31) (hrange : -2 ^ 31 ≤ newSize) :
    Returns (inodeResize held (t.sector .root) newSize) σ (Shrunk σ (t.sector .root) newSize) ↔
      σ.memory 0 = true ∧ -1023 < newSize ∧ (bytesToSectors newSize = bytesToSectors len ∨
        newSize ≤ 0 ∧ (len ≤ 512 * 12 ∨ 512 * capacity < len)) := by
  have hcapacity : capacity = 16524 := rfl
  have hupTo := h.upTo
  have hfit := bytesToSectors_le hlen
  have hzero := pos_of_bytesToSectors hlen
  -- after it, an entry that is left set shows that blocks were kept
  have hleft : ∀ {s : Slot}, newSize ≤ 0 → s ≠ .root →
      Ensures (inodeResize held (t.sector .root) newSize) σ (fun ok σ' => ok = true →
        nodeAt σ' (t.sector .root) s ≠ 0) →
      ¬Returns (inodeResize held (t.sector .root) newSize) σ
        (Shrunk σ (t.sector .root) newSize) := by
    rintro s hneg hs hset ⟨ok, σ', hrun, hshrunk⟩
    exact hset ok σ' hrun hshrunk.returned (hshrunk.cleared s hs (hneg.trans (by omega)))
  constructor
  · intro hret
    have hmem : σ.memory 0 = true := by
      by_contra hno
      obtain ⟨ok, σ', hrun, hshrunk⟩ := hret
      unfold inodeResize inodeResizeWith at hrun
      rw [run_bind_of_run (run_alloc σ), if_pos (by simpa using hno)] at hrun
      have hok : false = ok := (Prod.mk.inj (Option.some.inj hrun)).1
      rw [hshrunk.returned] at hok
      cases hok
    have hge : -1023 < newSize := by
      by_contra hno
      obtain ⟨hpos, hge⟩ := le_bytesToSectors_of_neg (not_lt.1 hno) hrange hlen
      rcases hge.lt_or_eq with hmore | hsame
      · refine hleft (s := .data 0) (by omega) (by simp) (fun ok σ' hrun hok => ?_) hret
        obtain ⟨f, a, ι, σ₁, hfill, hend, hnode⟩ := inodeResize_fills huse h hmore ok σ' hrun hok
        rw [hnode]
        refine hfill.full 0 ?_
        by_contra hzero
        obtain rfl : f = 0 := by omega
        have hnone : ((indexOf σ.store (t.sector .root)
          (σ.store (t.sector .root))).empties 0).card = 0 := rfl
        omega
      · refine hleft (s := .data 0) (by omega) (by simp) (fun ok σ' hrun _ => ?_) hret
        rw [inodeResize_stays h hmem hsame.symm] at hrun
        obtain rfl := (Prod.mk.inj (Option.some.inj hrun)).2
        rw [h.nodeAt_setLength, ← h.nodeSector_eq]
        refine (h.nodeAt_ne_zero (by simp)).2 ?_
        show 0 < t.blocks
        omega
    refine ⟨hmem, hge, ?_⟩
    by_contra hno
    rw [not_or] at hno
    obtain ⟨hdiff, hno⟩ := hno
    have hless : bytesToSectors newSize < bytesToSectors len := by
      refine lt_of_le_of_ne ?_ hdiff
      rcases le_or_gt newSize 0 with hneg | hpos
      · rw [bytesToSectors_nonpos hge hneg]
        exact Nat.zero_le _
      · obtain ⟨m, rfl⟩ := Int.eq_ofNat_of_zero_le hpos.le
        exact bytesToSectors_mono (by omega) hlen
    rcases le_or_gt newSize 0 with hneg | hpos
    · refine not_shrunk_of_left huse h hmem hneg hge ?_ ?_ hret
      · by_contra hle
        exact hno ⟨hneg, .inl (not_lt.1 hle)⟩
      · by_contra hgt
        exact hno ⟨hneg, .inr (not_le.1 hgt)⟩
    · exact not_shrunk_of_cut huse h hmem hpos hlt hlen hless hret
  · rintro ⟨hmem, hge, hsame | ⟨hneg, hor⟩⟩
    · exact shrunk_of_same h hmem hlt hlen hge hsame
    · have hzero' := bytesToSectors_nonpos hge hneg
      rcases Nat.eq_zero_or_pos len with rfl | hpos
      · refine shrunk_of_same h hmem hlt hlen hge ?_
        rw [hzero', hzero.2 rfl]
      · refine shrunk_of_gone huse h hmem hneg hzero' ?_ ?_
        · omega
        · rcases hor with hle | hgt
          · rw [bytesToSectors_of_lt (by omega)]
            omega
          · omega

end Shrink

/-- A file of `1024` bytes, made empty. -/
theorem shrunk_iff_empty : ∃ σ t, Returns (inodeResize none (Tree.sector t .root) 0) σ
    (Shrunk σ (t.sector .root) 0) := by
  obtain ⟨fm, σ, t, huse, hbuilt, hmem⟩ := exists_built (n := 1024) (by decide)
  exact ⟨σ, t, (shrunk_iff huse hbuilt (by norm_num) (by norm_num) (by norm_num)).2
    ⟨hmem 0, by norm_num, .inr ⟨le_rfl, .inl (by norm_num)⟩⟩⟩

/-- A file of `1024` bytes, cut to `512`: its first block is gone. -/
theorem not_shrunk : ∃ fm σ t, InUse fm none σ ∧ Built fm σ t 1024 ∧ σ.Memory ∧
    ¬Returns (inodeResize none (t.sector .root) 512) σ (Shrunk σ (t.sector .root) 512) := by
  obtain ⟨fm, σ, t, huse, hbuilt, hmem⟩ := exists_built (n := 1024) (by decide)
  exact ⟨fm, σ, t, huse, hbuilt, hmem, not_shrunk_of_cut huse hbuilt (hmem 0) (by norm_num)
    (by norm_num) (by norm_num) (by decide)⟩

end Filesys
end CS162

/-
# Growth that fails

`projects1-3/src/filesys/inode.c`, lines 241-408 and 705-740.

Where `allocate_blocks` fails, `inode_resize` calls `free_blocks` for as many blocks
as it had asked for, and that frees from the front of the file.  A file that had
blocks loses its first one, while its inode on the disk still has it.  A file without
blocks gets back what the index on the disk shows: all, unless some of the new blocks
are in the index block that `allocate_blocks` had in its buffer and has given up
(`failedGrowth_iff`).
-/

import Mathlib.Data.Fintype.Fin
import CS162.Filesys.Shrinking

namespace CS162
namespace Filesys

open CS162.Basis

/-- The sectors that `free_map_allocate` can give: as many as there are free ones, as long as
`bitmap_write` gets its memory. -/
def supply (σ : FsState) : ℕ :=
  Nat.findGreatest (fun a => ∀ i < a, σ.memory i = true) σ.freeMap.free.card

/-- The free map, the inode on the disk and the sectors that are reached from it are as before. -/
structure Unchanged (σ : FsState) (t : Tree) (σ' : FsState) : Prop where
  freeMap : ∀ n, σ'.freeMap.bits n = σ.freeMap.bits n
  content : ∀ s ∈ t.live, σ'.store (t.sector s) = σ.store (t.sector s)

/-! ### How many sectors were taken -/

/-- The nodes, counted by kind. -/
theorem Index.card_nodes (ι : Index) : ι.nodes.card =
    1 + (if ι.Has .indirect then 1 else 0) + (if ι.Has .doubly then 1 else 0) +
      (Finset.univ.filter fun i => ι.Has (.table i)).card + (ι.filled capacity).card := by
  have hdata : ((Finset.range capacity).image Slot.data).filter ι.Has =
      (ι.filled capacity).image Slot.data := by
    rw [Finset.filter_image]
    refine congrArg (Finset.image Slot.data) (Finset.filter_congr fun b _ => ?_)
    exact Index.has_data
  have htable : (Finset.univ.image Slot.table).filter ι.Has =
      (Finset.univ.filter fun i => ι.Has (.table i)).image Slot.table := Finset.filter_image ..
  have hroot : ({.root, .indirect, .doubly} : Finset Slot).filter ι.Has =
      insert .root ((if ι.Has .indirect then {.indirect} else ∅) ∪
        (if ι.Has .doubly then {.doubly} else ∅)) := by
    ext s
    simp only [Finset.mem_filter, Finset.mem_insert, Finset.mem_singleton, Finset.mem_union]
    have := ι.has_root
    split_ifs <;> simp <;> grind
  have hinj : Function.Injective Slot.data := fun _ _ he => Slot.data.inj he
  have hinj' : Function.Injective Slot.table := fun _ _ he => Slot.table.inj he
  unfold Index.nodes Slot.all
  rw [Finset.filter_union, Finset.filter_union, hdata, htable, hroot, Finset.card_union_of_disjoint,
    Finset.card_union_of_disjoint, Finset.card_image_of_injective _ hinj,
    Finset.card_image_of_injective _ hinj']
  · have hcard : (insert Slot.root ((if ι.Has .indirect then {Slot.indirect} else ∅) ∪
        (if ι.Has .doubly then {Slot.doubly} else ∅)) : Finset Slot).card =
        1 + (if ι.Has .indirect then 1 else 0) + (if ι.Has .doubly then 1 else 0) := by
      split_ifs <;> rfl
    rw [hcard]
  · rw [Finset.disjoint_left]
    intro s hs hs'
    obtain ⟨i, -, rfl⟩ := Finset.mem_image.1 hs'
    split_ifs at hs <;> simp at hs
  · rw [Finset.disjoint_left]
    intro s hs hs'
    obtain ⟨b, -, rfl⟩ := Finset.mem_image.1 hs'
    rw [Finset.mem_union] at hs
    rcases hs with hs | hs
    · split_ifs at hs <;> simp at hs
    · simp at hs

section Failed

variable {fm : Tree} {held : Option InodePtr} {own : Set BlockSector} {inv : FsState → Prop}
  {σ₀ σ σ' : FsState} {ι₀ ι : Index} {buf : Set Slot} {f a : ℕ} {t : Tree} {len : ℕ} {newSize : ℤ}

/-- The sectors that a call took before it failed are all there were. -/
theorem Filling.supply_eq (h : Filling own inv σ₀ ι₀ buf f a σ ι) (hshort : Short σ₀ a) :
    supply σ₀ = a := by
  have hfree := h.free
  refine Nat.findGreatest_eq_iff.2 ⟨by omega, fun _ => h.granted, fun n hlt hle hall => ?_⟩
  rcases hshort with hcard | hmem
  · omega
  · rw [hall a hlt] at hmem
    cases hmem

/-- The nodes above the blocks below `f` are there. -/
theorem Filling.has_of_first (h : Filling own inv σ₀ ι₀ buf f a σ ι) {s : Slot} (hs : s.first < f) :
    ι.Has s := by
  have hdata : ∀ b < f, ι.Has (.data b) := fun b hb => Index.has_data.2 (h.full b hb)
  have htable : ∀ i : Fin 128, 140 + 128 * i.val < f → ι.Has (.table i) := fun i hlt =>
    h.indexed.has_parent (i := 0) rfl (hdata _ hlt)
  cases s with
  | root => exact ι.has_root
  | indirect => exact h.indexed.has_parent (i := 0) rfl (hdata 12 hs)
  | doubly => exact h.indexed.has_parent (c := .table 0) (i := 0) rfl (htable 0 hs)
  | table i => exact htable i hs
  | data b => exact hdata b hs

/-- **How many sectors the first `f` data blocks took**, in an inode that had none: their own, and
those of the index blocks. -/
theorem Filling.spill_iff (h : Filling own inv σ₀ ι₀ buf f a σ ι) (hnew : ∀ s, ι₀.Has s → s = .root)
    (hf : f < capacity) : a < 142 ∨ (a - 142) % 129 ≤ 1 ↔ spillStart f = f := by
  have hcapacity : capacity = 16524 := rfl
  -- the index blocks of the data blocks below `f`
  have hopen : ∀ {s : Slot}, s ≠ .root → ι.Has s → s.first ≤ f := fun hs hhas =>
    h.tight hhas fun hhas₀ => hs (hnew _ hhas₀)
  have hdata : ∀ {b}, ι.Has (.data b) ↔ b < f := by
    intro b
    refine ⟨fun hhas => ?_, fun hlt => Index.has_data.2 (h.full b hlt)⟩
    by_contra hge
    have hrest := h.rest b (not_lt.1 hge)
    rw [Index.has_data, hrest] at hhas
    exact absurd (hnew _ (Index.has_data.2 hhas)) (by simp)
  have hindirect : 12 < f → ι.Has .indirect := fun hlt => h.has_of_first hlt
  have htable : ∀ i : Fin 128, 140 + 128 * i.val < f → ι.Has (.table i) := fun _ hlt =>
    h.has_of_first hlt
  have hdoubly : 140 < f → ι.Has .doubly := fun hlt => h.has_of_first hlt
  have hdoubly' : f < 140 → ¬ι.Has .doubly := fun hlt hhas =>
    absurd (hopen (by simp) hhas) (not_le.2 hlt)
  have hindirect' : f < 12 → ¬ι.Has .indirect := fun hlt hhas =>
    absurd (hopen (by simp) hhas) (not_le.2 hlt)
  have hfilled : (ι.filled capacity).card = f := by
    have heq : ι.filled capacity = Finset.range f := by
      ext b
      rw [Index.filled, Finset.mem_filter, Finset.mem_range, Finset.mem_range, ← Index.has_data, hdata]
      omega
    rw [heq, Finset.card_range]
  have hone : ι₀.nodes.card = 1 := by
    have heq : ι₀.nodes = {.root} := by
      ext s
      rw [Index.nodes, Finset.mem_filter, Finset.mem_singleton]
      refine ⟨fun hs => hnew s hs.2, ?_⟩
      rintro rfl
      exact ⟨Slot.mem_all (by simp), ι₀.has_root⟩
    rw [heq, Finset.card_singleton]
  -- between the index blocks that are begun and those that may be
  have hlow : min 128 ((f - 140 + 127) / 128) ≤ (Finset.univ.filter fun i => ι.Has (.table i)).card := by
    rw [← Fin.card_filter_val_lt]
    refine Finset.card_le_card fun i hi => ?_
    rw [Finset.mem_filter] at hi ⊢
    exact ⟨hi.1, htable i (by omega)⟩
  have hhigh : (Finset.univ.filter fun i => ι.Has (.table i)).card ≤
      min 128 (if f < 140 then 0 else (f - 140) / 128 + 1) := by
    rw [← Fin.card_filter_val_lt]
    refine Finset.card_le_card fun i hi => ?_
    rw [Finset.mem_filter] at hi ⊢
    have hle : 140 + 128 * i.val ≤ f := hopen (by simp) hi.2
    refine ⟨hi.1, ?_⟩
    rw [if_neg (by omega)]
    omega
  have hcount := h.count
  rw [hone, ι.card_nodes, hfilled] at hcount
  unfold spillStart
  rcases lt_trichotomy f 140 with hlt | rfl | hgt
  · rw [if_neg (hdoubly' hlt)] at hcount
    rw [if_pos hlt] at hhigh
    rw [if_neg (by omega)]
    split_ifs at hcount <;> omega
  · rw [if_pos (hindirect (by norm_num))] at hcount
    rw [if_neg (by omega)] at hhigh
    split_ifs at hcount ⊢ <;> omega
  · rw [if_pos (hindirect (by omega)), if_pos (hdoubly hgt)] at hcount
    rw [if_neg (by omega)] at hhigh
    rw [if_pos hgt]
    omega

/-! ### What is left -/

/-- What a call for `blocks` more blocks that fails did: `allocate_blocks` turned the index into
`ι`, of which the disk has what was not given up with a buffer, and `free_blocks` that into `ι'`. -/
structure GaveBack (fm : Tree) (held : Option InodePtr) (σ : FsState) (t : Tree) (blocks : ℕ)
    (allocated f a : ℕ) (ι : Index) (d : Sector) (σ₁ : FsState) (freed f' g : ℕ) (ι' : Index)
    (d' : Sector) (σ' : FsState) : Prop where
  fills : Fills fm.sectors (FreeMapFile fm held) σ.shift
    (indexOf σ.store (t.sector .root) (σ.store (t.sector .root))) capacity blocks false d
    allocated f a σ₁ ι
  empties : Empties fm.sectors (FreeMapFile fm held) σ₁
    (ι.spill (indexOf σ.store (t.sector .root) (σ.store (t.sector .root))) σ₁.store f) capacity
    blocks d' freed f' g σ' ι'
  kept : blocks ≤ freed → f' ≤ 140 → ι'.sector .indirect = ι.sector .indirect
  gone : freed < blocks → ∀ s, s ≠ .root → ¬ι'.Has s
  lost : 140 < f' → ¬ι'.Has .indirect ∧ (ι.Has .doubly →
    tableEntry σ'.store (tableEntry σ'.store (ι.sector .doubly) 0) 0 = 0)

/-- **A call that fails**: what `allocate_blocks` and then `free_blocks` did. -/
theorem inodeResize_fails (huse : InUse fm held σ) (h : Built fm σ t len) (hmem : σ.memory 0 = true)
    (newSize : ℤ) :
    Returns (inodeResize held (t.sector .root) newSize) σ fun ok σ' => ok = false →
      bytesToSectors len < bytesToSectors newSize ∧ ∃ allocated f a ι d σ₁ freed f' g ι' d',
        GaveBack fm held σ t (bytesToSectors newSize - bytesToSectors len) allocated f a ι d σ₁ freed
          f' g ι' d' σ' := by
  have hread : σ.shift.store (t.sector .root) = t.table .root := h.store_root
  have htable : t.table .root = σ.store (t.sector .root) := h.store_root.symm
  unfold inodeResize inodeResizeWith
  rw [returns_bind_of_run (run_alloc σ), if_neg (by simp [hmem])]
  dsimp only [readSector]
  rw [bind_assoc, returns_get_bind, pure_bind, hread, h.length, htable]
  split_ifs with hless hmore
  · refine (freeBlocks_empties huse.shift h.sound.shift _).seq fun d σ₁ _ => ?_
    unfold setDiskLength writeSector
    rw [returns_modify_bind, returns_pure]
    exact fun hok => by cases hok
  · refine (allocateBlocks_fills huse.shift h.sound.shift
      (bytesToSectors newSize - bytesToSectors len)).seq fun r σ₁ h₁ => ?_
    obtain ⟨allocated, f, a, ι, hf⟩ := h₁
    obtain ⟨ok, d⟩ := r
    dsimp only at hf ⊢
    cases ok with
    | true =>
      rw [if_neg (by simp)]
      unfold setDiskLength writeSector
      rw [returns_modify_bind, returns_pure]
      exact fun hok => by cases hok
    | false =>
      rw [if_pos rfl]
      obtain ⟨buf, hfill, -⟩ := hf.filling
      have hopen : σ₁.freeMapFile ≠ none := by
        rw [hfill.same.freeMapFile]
        exact huse.isOpen
      have hd : d = (ι.spill (indexOf σ.store (t.sector .root) (σ.store (t.sector .root)))
        σ₁.store f).table .root := hf.inode
      rw [hd]
      refine (freeBlocksWith_empties (bitmapWrites fm held) hopen (hf.disk rfl)
        hfill.inv).seq fun d' σ₂ h₂ => ?_
      obtain ⟨freed, f', g, ι', he, hkept, hgone, hlost⟩ := h₂
      rw [returns_pure]
      exact fun _ => ⟨hmore, allocated, f, a, ι, _, σ₁, freed, f', g, ι', d', hf, he,
        fun hle => (hkept hle).1, hgone, hlost⟩
  · unfold setDiskLength writeSector
    rw [returns_modify_bind, returns_pure]
    exact fun hok => by cases hok

section GaveBack

variable {blocks allocated freed f' g : ℕ} {d d' : Sector} {σ₁ : FsState} {ι' : Index}

/-- Only index blocks are written. -/
theorem GaveBack.outside
    (h : GaveBack fm held σ t blocks allocated f a ι d σ₁ freed f' g ι' d' σ') {x : BlockSector}
    (hx : x ∉ fm.sectors) (hno : ∀ s, s.IsTable → s ≠ .root → ι.Has s → ι.sector s ≠ x) :
    σ'.store x = σ.store x := by
  obtain ⟨buf, hfill, -⟩ := h.fills.filling
  refine (h.empties.emptying.outside x hx fun s hst hs hhas => ?_).trans (hfill.outside x hx hno)
  obtain ⟨hhas', heq⟩ := hfill.sector_spill hhas
  rw [heq]
  exact hno s hst hs hhas'

/-- The inode on the disk is as it was. -/
theorem GaveBack.store_root
    (h : GaveBack fm held σ t blocks allocated f a ι d σ₁ freed f' g ι' d' σ')
    (hbuilt : Built fm σ t len) : σ'.store (t.sector .root) = σ.store (t.sector .root) := by
  obtain ⟨buf, hfill, -⟩ := h.fills.filling
  have hroot : ι.sector .root = t.sector .root := hfill.keep (Index.has_root _)
  refine h.outside (hbuilt.claimed.notOwn _ hbuilt.root_mem) fun s _ hs hhas heq => ?_
  rw [← hroot] at heq
  exact hs (hfill.indexed.distinct hhas ι.has_root heq)

end GaveBack

/-- **A file that had blocks** has lost its first one. -/
theorem not_unchanged_of_blocks (huse : InUse fm held σ) (h : Built fm σ t len)
    (hmem : σ.memory 0 = true) (hblocks : 0 < t.blocks)
    (hrun : (inodeResize held (t.sector .root) newSize).run σ = some (false, σ')) :
    ¬Unchanged σ t σ' := by
  have hcapacity : 0 < capacity := by decide
  obtain ⟨hmore, allocated, f, a, ι, d, σ₁, freed, f', g, ι', d', hf, he, -⟩ :=
    (inodeResize_fails huse h hmem newSize).of_run hrun rfl
  obtain ⟨buf, hfill, -⟩ := hf.filling
  intro hsame
  have hhas₀ : (indexOf σ.store (t.sector .root) (σ.store (t.sector .root))).Has (.data 0) :=
    h.has.2 ((h.mem_live (by simp)).2 hblocks)
  have hsector : ι.sector (.data 0) =
      nodeAt σ (t.sector .root) (.data 0) := hfill.keep hhas₀
  have hspill : (ι.spill (indexOf σ.store (t.sector .root) (σ.store (t.sector .root)))
      σ₁.store f).sector (.data 0) = nodeAt σ (t.sector .root) (.data 0) := by
    rw [Index.sector_spill_data]
    split_ifs
    · rfl
    · exact hsector
  have hne : nodeAt σ (t.sector .root) (.data 0) ≠ 0 := (h.nodeAt_ne_zero (by simp)).2 hblocks
  have hfirst : 0 < f' := by
    by_contra hzero
    obtain rfl : f' = 0 := by omega
    have hcount := he.frees.count
    have hnone : ((ι.spill (indexOf σ.store (t.sector .root) (σ.store (t.sector .root)))
      σ₁.store f).filled 0).card = 0 := rfl
    rcases he.frees.done with hd | hd
    · omega
    · omega
  have hbit : σ.freeMap.bits (nodeAt σ (t.sector .root) (.data 0)).toNat = true := h.sound.taken hhas₀
  have hleft := (he.emptying.bits _).1 ((hsame.freeMap _).trans hbit)
  refine hleft.2 ⟨.data 0, Index.has_data.2 ?_, ?_, ?_, congrArg UInt32.toNat hspill⟩
  · rw [hspill]
    exact hne
  · rw [Index.has_data, not_not]
    exact he.emptying.low 0 (hfirst.trans_le he.emptying.le)
  · intro b hb
    obtain rfl := Slot.data.inj hb
    omega

/-- **A file without blocks** gets back what the index on the disk shows. -/
theorem unchanged_iff_of_empty (huse : InUse fm held σ) (h : Built fm σ t len)
    (hmem : σ.memory 0 = true) (hblocks : t.blocks = 0)
    (hrun : (inodeResize held (t.sector .root) newSize).run σ = some (false, σ')) :
    Unchanged σ t σ' ↔ supply σ.shift < 142 ∨ (supply σ.shift - 142) % 129 ≤ 1 := by
  obtain ⟨hmore, allocated, f, a, ι, d, σ₁, freed, f', g, ι', d', hback⟩ :=
    (inodeResize_fails huse h hmem newSize).of_run hrun rfl
  have hinode := hback.store_root h
  obtain ⟨hf, he, -, hgone, -⟩ := hback
  set blocks := bytesToSectors newSize - bytesToSectors len
  obtain ⟨buf, hfill, -⟩ := hf.filling
  obtain ⟨hlt, hfcap, -, hshort⟩ := hf.stops.failed rfl
  have hnew : ∀ s, (indexOf σ.store (t.sector .root) (σ.store (t.sector .root))).Has s →
      s = .root := by
    intro s hs
    by_contra hne
    have := (h.mem_live hne).1 (h.has.1 hs)
    omega
  set ι₀ := indexOf σ.store (t.sector .root) (σ.store (t.sector .root))
  have hzero : ∀ b, ι₀.sector (.data b) = 0 := by
    intro b
    by_contra hne
    exact absurd (hnew _ (Index.has_data.2 hne)) (by simp)
  -- `free_blocks` finds fewer blocks than it is asked for
  have hfew : freed < blocks := by
    have hempties : (ι₀.empties f).card = f := by
      rw [Index.empties, Finset.filter_true_of_mem fun b _ => hzero b, Finset.card_range]
    have hfilled : ((ι.spill ι₀ σ₁.store f).filled f').card ≤ f := by
      refine (Finset.card_le_card fun b hb => ?_).trans (Finset.card_range f).le
      have hne := (Finset.mem_filter.1 hb).2
      rw [Index.sector_spill_data] at hne
      split_ifs at hne with hge
      · exact absurd (hzero b) hne
      · exact Finset.mem_range.2 ((not_le.1 hge).trans_le (spillStart_le f))
    have hcount := hf.stops.count
    have hcount' := he.frees.count
    omega
  have hgap := he.gap hfew
  have hout := hgone hfew
  have hfresh : ∀ {s}, s ≠ .root → ι.Has s → σ.freeMap.bits (ι.sector s).toNat = false :=
    fun hs hhas => hfill.fresh hhas fun hhas₀ => hs (hnew _ hhas₀)
  have hbits : ∀ n, σ'.freeMap.bits n = true ↔ σ.freeMap.bits n = true ∨
      ∃ b, spillStart f ≤ b ∧ b < f ∧ (ι.sector (.data b)).toNat = n := by
    intro n
    rw [he.emptying.bits, hfill.bits]
    constructor
    · rintro ⟨hn | ⟨s, hs, hs₀, rfl⟩, hno⟩
      · exact .inl hn
      · have hsroot : s ≠ .root := by
          rintro rfl
          exact hs₀ ι₀.has_root
        have hspill : ¬(ι.spill ι₀ σ₁.store f).Has s := by
          intro hhas
          refine hno ⟨s, hhas, hout s hsroot, fun b _ hb => ?_, ?_⟩
          · omega
          · rw [(hfill.sector_spill hhas).2]
        cases s with
        | data b =>
          rw [Index.has_data, Index.sector_spill_data, not_not] at hspill
          split_ifs at hspill with hge
          · refine .inr ⟨b, hge, ?_, rfl⟩
            by_contra hno'
            rw [Index.has_data, hfill.rest b (not_lt.1 hno'), hzero] at hs
            exact hs rfl
          · exact absurd hspill (Index.has_data.1 hs)
        | _ => exact absurd hs hspill
    · rintro (hn | ⟨b, hge, hlt', rfl⟩)
      · refine ⟨.inl hn, ?_⟩
        rintro ⟨s, hs, hs', -, rfl⟩
        obtain ⟨hhas, heq⟩ := hfill.sector_spill hs
        have hsroot : s ≠ .root := by
          rintro rfl
          exact hs' ι'.has_root
        rw [heq, hfresh hsroot hhas] at hn
        cases hn
      · have hhas : ι.Has (.data b) := Index.has_data.2 (hfill.full b hlt')
        refine ⟨.inr ⟨.data b, hhas, fun hhas₀ => absurd (hnew _ hhas₀) (by simp), rfl⟩, ?_⟩
        rintro ⟨s, hs, -, -, heq⟩
        obtain ⟨hhas', heq'⟩ := hfill.sector_spill hs
        rw [heq'] at heq
        obtain rfl := hfill.indexed.distinct hhas' hhas (UInt32.toNat_inj.1 heq)
        rw [Index.has_data, Index.sector_spill_data, if_pos hge, hzero] at hs
        exact hs rfl
  rw [hfill.supply_eq hshort, hfill.spill_iff hnew hfcap]
  constructor
  · intro hsame
    refine le_antisymm (spillStart_le f) ?_
    by_contra hno
    have hlt' : spillStart f < f := not_le.1 hno
    have hbit := (hbits _).2 (.inr ⟨spillStart f, le_rfl, hlt', rfl⟩)
    rw [hsame.freeMap, hfresh (by simp) (Index.has_data.2 (hfill.full _ hlt'))] at hbit
    cases hbit
  · intro hstart
    refine ⟨fun n => ?_, fun s hs => ?_⟩
    · rw [Bool.eq_iff_iff, hbits]
      refine ⟨fun hn => hn.resolve_right ?_, .inl⟩
      rintro ⟨b, hge, hlt', -⟩
      omega
    · have hsroot : s = .root := by
        by_contra hne
        have := (h.mem_live hne).1 hs
        omega
      subst hsroot
      exact hinode

/-- **Growth that fails.**  A call of `inode_resize` that returns false though `calloc` was met
leaves everything as it was if and only if the file has no blocks, and the sectors that can be
allocated do not run out inside an index block under the doubly indirect block. -/
theorem failedGrowth_iff (huse : InUse fm held σ) (h : Built fm σ t len) (hmem : σ.memory 0 = true)
    (hrun : (inodeResize held (t.sector .root) newSize).run σ = some (false, σ')) :
    Unchanged σ t σ' ↔
      t.blocks = 0 ∧ (supply σ.shift < 142 ∨ (supply σ.shift - 142) % 129 ≤ 1) := by
  rcases Nat.eq_zero_or_pos t.blocks with hzero | hpos
  · rw [unchanged_iff_of_empty huse h hmem hzero hrun, and_iff_right hzero]
  · refine iff_of_false (not_unchanged_of_blocks huse h hmem hpos hrun) fun hcon => ?_
    omega

/-- Without a free sector a file cannot grow by a block. -/
theorem inodeResize_full (huse : InUse fm held σ) (h : Built fm σ t len) (hmem : σ.memory 0 = true)
    (hall : ∀ n, σ.freeMap.bits n = true) (newSize : ℤ) (hcap : t.blocks < capacity)
    (hmore : bytesToSectors len < bytesToSectors newSize) :
    ∃ σ', (inodeResize held (t.sector .root) newSize).run σ = some (false, σ') := by
  obtain ⟨ok, σ', hrun, -⟩ := inodeResize_fails huse h hmem newSize
  cases ok with
  | false => exact ⟨σ', hrun⟩
  | true =>
    obtain ⟨f, a, ι, σ₁, hfill, hend, -⟩ := inodeResize_fills huse h hmore true σ' hrun rfl
    have hnew : ∀ b < f, b < t.blocks := by
      intro b hb
      refine (h.mem_live (s := .data b) (by simp)).1 (h.has.1 ?_)
      by_contra hno
      have hbit := hfill.fresh (Index.has_data.2 (hfill.full b hb)) hno
      rw [show σ.shift.freeMap = σ.freeMap from rfl, hall] at hbit
      cases hbit
    exfalso
    rcases hend with rfl | hge
    · exact lt_irrefl _ (hnew _ hcap)
    · obtain ⟨b, hb⟩ := Finset.card_pos.1 ((Nat.sub_pos_of_lt hmore).trans_le hge)
      obtain ⟨hlt, hzero⟩ := Index.mem_empties.1 hb
      exact (h.nodeAt_ne_zero (s := .data b) (by simp)).2 (hnew b hlt) hzero

end Failed

/-- A file of up to `8 MB` on a device without a free sector, and memory for all requests. -/
theorem exists_full {n : ℕ} (hn : n ≤ 512 * capacity) : ∃ fm σ t, InUse fm none σ ∧
    Built fm σ t n ∧ σ.Memory ∧ ∀ k, σ.freeMap.bits k = true := by
  obtain ⟨fm, σ, t, huse, hbuilt, hmem⟩ := exists_built hn
  let σ' : FsState := { σ with freeMap := { σ.freeMap with bits := fun _ => true } }
  have hsame : Same σ σ' := ⟨rfl, rfl, rfl, rfl, rfl, id⟩
  have hlaid : Laid σ' t n := hbuilt.toLaid.congr fun _ _ => rfl
  refine ⟨fm, σ', t, ⟨(bitmapWrites fm none).stable huse.file hsame fun _ _ => rfl, huse.isOpen,
    ⟨rfl, fun _ _ => rfl⟩⟩, ⟨hlaid, hbuilt.upTo, ⟨hbuilt.claimed.nonzero, fun _ _ => rfl,
    hbuilt.claimed.notOwn⟩, hbuilt.inRange⟩, hmem, fun _ => rfl⟩

/-- An empty file that gets no block is as it was. -/
theorem failedGrowth_iff_empty : ∃ σ t σ', (inodeResize none (Tree.sector t .root) 512).run σ =
    some (false, σ') ∧ Unchanged σ t σ' := by
  obtain ⟨fm, σ, t, huse, hbuilt, hmem, hall⟩ := exists_full (n := 0) (Nat.zero_le _)
  have hblocks : t.blocks = 0 := by
    rw [hbuilt.upTo]
    decide
  have hfree : σ.shift.freeMap.free = ∅ := by
    refine Finset.eq_empty_of_forall_notMem fun i hi => ?_
    have hbit := (Bitmap.mem_free.1 hi).2
    rw [show σ.shift.freeMap = σ.freeMap from rfl, hall] at hbit
    cases hbit
  have hsupply : supply σ.shift = 0 := by
    unfold supply
    rw [hfree, Finset.card_empty]
    rfl
  obtain ⟨σ', hrun⟩ := inodeResize_full huse hbuilt (hmem 0) hall 512
    (by rw [hblocks]; decide) (by decide)
  refine ⟨σ, t, σ', hrun, (failedGrowth_iff huse hbuilt (hmem 0) hrun).2 ⟨hblocks, .inl ?_⟩⟩
  rw [hsupply]
  norm_num

/-- A file of one block that gets no second one: its first one is released. -/
theorem failedGrowth_loses : ∃ fm σ t σ', InUse fm none σ ∧ Built fm σ t 512 ∧ σ.Memory ∧
    (inodeResize none (t.sector .root) 1024).run σ = some (false, σ') ∧ ¬Unchanged σ t σ' := by
  obtain ⟨fm, σ, t, huse, hbuilt, hmem, hall⟩ := exists_full (n := 512) (by decide)
  have hblocks : t.blocks = 1 := by
    rw [hbuilt.upTo]
    decide
  obtain ⟨σ', hrun⟩ := inodeResize_full huse hbuilt (hmem 0) hall 1024
    (by rw [hblocks]; decide) (by decide)
  exact ⟨fm, σ, t, σ', huse, hbuilt, hmem, hrun,
    not_unchanged_of_blocks huse hbuilt (hmem 0) (by omega) hrun⟩

end Filesys
end CS162

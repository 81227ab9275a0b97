/-
# What inode calls leave alone

`projects1-3/src/filesys/inode.c` and `projects1-3/src/filesys/free-map.c`.

Reading, writing, growing and making files changes the content of sectors, the
free map and the memory left, and nothing else: the open inodes and their counts
stay (`inodeWriteAt_preserves`, `createInode_preserves`).  Writing the free map
to its file does not change the free map either (`bitmapWrite_preserves`): a
growth of that file would take its lock a second time and not return.

Both come from one pass over the functions, `Ignores` being what a relation
between the state before and the state after needs for it.
-/

import CS162.Filesys.Inode

namespace CS162
namespace Filesys

open CS162.Basis

/-- A relation that does not look at the sectors and the memory. -/
structure Ignores (R : FsState → FsState → Prop) : Prop where
  refl : ∀ σ, R σ σ
  trans : ∀ {σ σ' σ''}, R σ σ' → R σ' σ'' → R σ σ''
  store : ∀ σ store, R σ { σ with store := store }
  memory : ∀ σ memory, R σ { σ with memory := memory }

section Ignores

variable {R : FsState → FsState → Prop} {α β : Type}

theorem Ignores.pure (hR : Ignores R) (a : α) : Preserves R (pure a : Kernel α) :=
  preserves_pure hR.refl

theorem Ignores.bind (hR : Ignores R) {x : Kernel α} {f : α → Kernel β} (h : Preserves R x)
    (hf : ∀ a, Preserves R (f a)) : Preserves R (x >>= f) :=
  h.bind hR.trans hf

theorem Ignores.get (hR : Ignores R) : Preserves R (get : Kernel FsState) := by
  intro σ a σ' hrun
  cases hrun
  exact hR.refl σ

theorem Ignores.readSector (hR : Ignores R) (sector : BlockSector) :
    Preserves R (readSector sector) :=
  hR.bind hR.get fun _ => hR.pure _

theorem Ignores.writeSector (hR : Ignores R) (sector : BlockSector) (s : Sector) :
    Preserves R (writeSector sector s) :=
  preserves_modify fun σ => hR.store σ _

theorem Ignores.readBytes (hR : Ignores R) (sector : BlockSector) (offset size : ℕ) :
    Preserves R (readBytes sector offset size) :=
  hR.bind hR.get fun _ => hR.pure _

theorem Ignores.writeBytes (hR : Ignores R) (sector : BlockSector) (buff : List UInt8)
    (offset : ℕ) : Preserves R (writeBytes sector buff offset) :=
  preserves_modify fun σ => hR.store σ _

theorem Ignores.alloc (hR : Ignores R) : Preserves R alloc := by
  intro σ a σ' hrun
  cases hrun
  exact hR.memory σ _

theorem Ignores.getInode (hR : Ignores R) (p : InodePtr) : Preserves R (getInode p) := by
  refine hR.bind hR.get fun σ => ?_
  split
  · exact hR.pure _
  · exact preserves_halt

theorem Ignores.inodeLength (hR : Ignores R) (sector : BlockSector) :
    Preserves R (inodeLength sector) :=
  hR.bind (hR.readSector sector) fun _ => hR.pure _

theorem Ignores.byteToSector (hR : Ignores R) (sector : BlockSector) (pos : ℕ) :
    Preserves R (byteToSector sector pos) := by
  refine hR.bind (hR.inodeLength sector) fun length => ?_
  split
  · refine hR.bind hR.get fun σ => ?_
    split
    · exact hR.pure _
    · exact preserves_halt
  · exact hR.pure _

theorem Ignores.readLoop (hR : Ignores R) (sector : BlockSector) (size offset : ℕ) :
    Preserves R (readLoop sector size offset) := by
  induction size using Nat.strong_induction_on generalizing offset with
  | _ size ih =>
    rw [Filesys.readLoop]
    split
    · exact hR.pure _
    · refine hR.bind (hR.byteToSector sector offset) fun sectorIdx => ?_
      refine hR.bind (hR.inodeLength sector) fun length => ?_
      split
      · exact hR.pure _
      · refine hR.bind (hR.readBytes _ _ _) fun bytes => ?_
        exact hR.bind (ih _ (by omega) _) fun rest => hR.pure _

theorem Ignores.inodeReadAt (hR : Ignores R) (p : InodePtr) (size offset : ℕ) :
    Preserves R (inodeReadAt p size offset) :=
  hR.bind (hR.getInode p) fun _ => hR.readLoop _ _ _

theorem Ignores.writeLoop (hR : Ignores R) (sector : BlockSector) (buffer : List UInt8)
    (offset : ℕ) : Preserves R (writeLoop sector buffer offset) := by
  induction hn : buffer.length using Nat.strong_induction_on generalizing buffer offset with
  | _ n ih =>
    rw [Filesys.writeLoop]
    split
    · exact hR.pure _
    · refine hR.bind (hR.byteToSector sector offset) fun sectorIdx => ?_
      refine hR.bind (hR.inodeLength sector) fun length => ?_
      split
      · exact hR.pure _
      · refine hR.bind (hR.writeBytes _ _ _) fun _ => ?_
        refine hR.bind (ih _ ?_ _ _ rfl) fun rest => hR.pure _
        rw [List.length_drop]
        omega

end Ignores

/-! ### Growing and shrinking -/

section With

variable {R : FsState → FsState → Prop} {bitmapWrite : Kernel Bool}

/-- What is asked of the free map for the functions that allocate and release. -/
structure Sparing (R : FsState → FsState → Prop) (bitmapWrite : Kernel Bool) : Prop
    extends Ignores R where
  allocate : ∀ cnt, Preserves R (freeMapAllocateWith bitmapWrite cnt)
  release : ∀ sector cnt, Preserves R (freeMapReleaseWith bitmapWrite sector cnt)

theorem Sparing.fillEntries (h : Sparing R bitmapWrite) (blocks : ℕ) (is : List (Fin 128))
    (table : Sector) (allocated : ℕ) :
    Preserves R (fillEntries bitmapWrite blocks is table allocated) := by
  induction is generalizing table allocated with
  | nil => exact h.pure _
  | cons i is ih =>
    rw [Filesys.fillEntries]
    split
    · split
      · refine h.bind (h.allocate 1) fun newBlock => ?_
        cases newBlock with
        | none => exact h.pure _
        | some sec => exact ih _ _
      · exact ih _ _
    · exact h.pure _

theorem Sparing.openTable (h : Sparing R bitmapWrite) (entry : BlockSector) :
    Preserves R (openTable bitmapWrite entry) := by
  unfold Filesys.openTable
  split
  · refine h.bind (h.allocate 1) fun newTable => ?_
    cases newTable with
    | none => exact h.pure _
    | some sec => exact h.bind (h.writeSector _ _) fun _ => h.pure _
  · exact h.pure _

theorem Sparing.fillTables (h : Sparing R bitmapWrite) (blocks : ℕ) (is : List (Fin 128))
    (doubly : Sector) (allocated : ℕ) :
    Preserves R (fillTables bitmapWrite blocks is doubly allocated) := by
  induction is generalizing doubly allocated with
  | nil => exact h.pure _
  | cons i is ih =>
    rw [Filesys.fillTables]
    split
    · refine h.bind (h.openTable _) fun table => ?_
      cases table with
      | none => exact h.pure _
      | some sec =>
        refine h.bind (h.readSector _) fun indirect => ?_
        refine h.bind (h.fillEntries _ _ _ _) fun ⟨ok, indirect, allocated⟩ => ?_
        dsimp only
        split
        · exact h.bind (h.writeSector _ _) fun _ => ih _ _
        · exact h.pure _
    · exact h.pure _

theorem Sparing.allocateIndirect (h : Sparing R bitmapWrite) (blocks : ℕ) (d : Sector)
    (allocated : ℕ) : Preserves R (allocateIndirect bitmapWrite blocks d allocated) := by
  refine h.bind (h.openTable _) fun table => ?_
  cases table with
  | none => exact h.pure _
  | some sec =>
    refine h.bind (h.readSector _) fun indirect => ?_
    refine h.bind (h.fillEntries _ _ _ _) fun ⟨ok, indirect, allocated⟩ => ?_
    exact h.bind (h.writeSector _ _) fun _ => h.pure _

theorem Sparing.allocateDoubly (h : Sparing R bitmapWrite) (blocks : ℕ) (d : Sector)
    (allocated : ℕ) : Preserves R (allocateDoubly bitmapWrite blocks d allocated) := by
  refine h.bind (h.openTable _) fun table => ?_
  cases table with
  | none => exact h.pure _
  | some sec =>
    refine h.bind (h.readSector _) fun doubly => ?_
    refine h.bind (h.fillTables _ _ _ _) fun ⟨ok, doubly, allocated⟩ => ?_
    exact h.bind (h.writeSector _ _) fun _ => h.pure _

theorem Sparing.allocateBlocks (h : Sparing R bitmapWrite) (d : Sector) (blocks : ℕ) :
    Preserves R (allocateBlocksWith bitmapWrite d blocks) := by
  refine h.bind (h.fillEntries _ _ _ _) fun ⟨ok, d, allocated⟩ => ?_
  dsimp only
  split
  · exact h.pure _
  · split
    · refine h.bind (h.allocateIndirect _ _ _) fun ⟨ok, d, allocated⟩ => ?_
      dsimp only
      split
      · exact h.pure _
      · split
        · exact h.bind (h.allocateDoubly _ _ _) fun ⟨ok, d, _⟩ => h.pure _
        · exact h.pure _
    · exact h.pure _

theorem Sparing.clearEntries (h : Sparing R bitmapWrite) (blocks : ℕ) (is : List (Fin 128))
    (table : Sector) (freed : ℕ) :
    Preserves R (clearEntries bitmapWrite blocks is table freed) := by
  induction is generalizing table freed with
  | nil => exact h.pure _
  | cons i is ih =>
    rw [Filesys.clearEntries]
    split
    · split
      · exact h.bind (h.release _ 1) fun _ => ih _ _
      · exact ih _ _
    · exact h.pure _

theorem Sparing.clearTables (h : Sparing R bitmapWrite) (blocks : ℕ) (is : List (Fin 128))
    (doubly : Sector) (freed : ℕ) :
    Preserves R (clearTables bitmapWrite blocks is doubly freed) := by
  induction is generalizing doubly freed with
  | nil => exact h.pure _
  | cons i is ih =>
    rw [Filesys.clearTables]
    split
    · split
      · refine h.bind (h.readSector _) fun indirect => ?_
        refine h.bind (h.clearEntries _ _ _ _) fun ⟨indirect, freed⟩ => ?_
        refine h.bind (h.writeSector _ _) fun _ => ?_
        exact h.bind (h.release _ 1) fun _ => ih _ _
      · exact ih _ _
    · exact h.pure _

theorem Sparing.closeTable (h : Sparing R bitmapWrite) (blocks : ℕ) (entry : BlockSector)
    (table : Sector) (freed : ℕ) :
    Preserves R (closeTable bitmapWrite blocks entry table freed) := by
  unfold Filesys.closeTable
  split
  · exact h.bind (h.writeSector _ _) fun _ => h.pure _
  · exact h.bind (h.release _ 1) fun _ => h.pure _

theorem Sparing.freeIndirect (h : Sparing R bitmapWrite) (blocks : ℕ) (d : Sector)
    (freed : ℕ) : Preserves R (freeIndirect bitmapWrite blocks d freed) := by
  unfold Filesys.freeIndirect
  split
  · refine h.bind (h.readSector _) fun indirect => ?_
    refine h.bind (h.clearEntries _ _ _ _) fun ⟨indirect, freed⟩ => ?_
    exact h.bind (h.closeTable _ _ _ _) fun _ => h.pure _
  · exact h.pure _

theorem Sparing.freeDoubly (h : Sparing R bitmapWrite) (blocks : ℕ) (d : Sector)
    (freed : ℕ) : Preserves R (freeDoubly bitmapWrite blocks d freed) := by
  unfold Filesys.freeDoubly
  split
  · refine h.bind (h.readSector _) fun doubly => ?_
    refine h.bind (h.clearTables _ _ _ _) fun ⟨doubly, freed⟩ => ?_
    exact h.bind (h.closeTable _ _ _ _) fun _ => h.pure _
  · exact h.pure _

theorem Sparing.freeBlocks (h : Sparing R bitmapWrite) (d : Sector) (blocks : ℕ) :
    Preserves R (freeBlocksWith bitmapWrite d blocks) := by
  refine h.bind (h.clearEntries _ _ _ _) fun ⟨d, freed⟩ => ?_
  refine h.bind (h.freeIndirect _ _ _) fun ⟨d, freed⟩ => ?_
  exact h.bind (h.freeDoubly _ _ _) fun ⟨d, _⟩ => h.pure _

theorem Sparing.setDiskLength (h : Sparing R bitmapWrite) (sector : BlockSector) (d : Sector)
    (newSize : Off) : Preserves R (setDiskLength sector d newSize) :=
  h.bind (h.writeSector _ _) fun _ => h.pure _

theorem Sparing.inodeResize (h : Sparing R bitmapWrite) (sector : BlockSector) (newSize : Off) :
    Preserves R (inodeResizeWith bitmapWrite sector newSize) := by
  refine h.bind h.alloc fun delivered => ?_
  split
  · exact h.pure _
  · refine h.bind (h.readSector sector) fun d => ?_
    dsimp only
    split
    · exact h.bind (h.freeBlocks _ _) fun _ => h.setDiskLength _ _ _
    · split
      · refine h.bind (h.allocateBlocks _ _) fun ⟨ok, d⟩ => ?_
        dsimp only
        split
        · exact h.bind (h.freeBlocks _ _) fun _ => h.pure _
        · exact h.setDiskLength _ _ _
      · exact h.setDiskLength _ _ _

theorem Sparing.inodeWriteAt (h : Sparing R bitmapWrite) (p : InodePtr) (buffer : List UInt8)
    (offset : ℕ) : Preserves R (inodeWriteAtWith bitmapWrite p buffer offset) := by
  refine h.bind (h.getInode p) fun inode => ?_
  split
  · exact h.pure _
  · refine h.bind (h.inodeLength _) fun length => ?_
    split
    · refine h.bind (h.inodeResize _ _) fun ok => ?_
      split
      · exact h.pure _
      · exact h.writeLoop _ _ _
    · exact h.writeLoop _ _ _

theorem Sparing.createInode (h : Sparing R bitmapWrite) (kind : Bool) (sector : BlockSector)
    (length : Off) : Preserves R (createInodeWith bitmapWrite kind sector length) := by
  unfold createInodeWith
  split
  · exact preserves_halt
  · refine h.bind h.alloc fun delivered => ?_
    split
    · exact h.pure _
    · refine h.bind (h.allocateBlocks _ _) fun ⟨ok, d⟩ => ?_
      dsimp only
      split
      · exact h.pure _
      · exact h.bind (h.writeSector _ _) fun _ => h.pure _

end With

/-! ### The open inodes stay -/

/-- The inodes and the list of the open ones are the same. -/
structure SameTable (σ σ' : FsState) : Prop where
  freeMapFile : σ'.freeMapFile = σ.freeMapFile
  inodes : σ'.inodes = σ.inodes
  openInodes : σ'.openInodes = σ.openInodes
  nextPtr : σ'.nextPtr = σ.nextPtr

/-- The inodes and the free map are the same. -/
structure SameMap (σ σ' : FsState) : Prop extends SameTable σ σ' where
  freeMap : σ'.freeMap = σ.freeMap

theorem SameTable.refl (σ : FsState) : SameTable σ σ := ⟨rfl, rfl, rfl, rfl⟩

theorem SameTable.trans {σ σ' σ'' : FsState} (h : SameTable σ σ') (h' : SameTable σ' σ'') :
    SameTable σ σ'' :=
  ⟨h'.freeMapFile.trans h.freeMapFile, h'.inodes.trans h.inodes,
    h'.openInodes.trans h.openInodes, h'.nextPtr.trans h.nextPtr⟩

/-- A change of the free map beforehand. -/
theorem SameTable.remap {σ σ' : FsState} {freeMap : Bitmap}
    (h : SameTable { σ with freeMap := freeMap } σ') : SameTable σ σ' :=
  ⟨h.freeMapFile, h.inodes, h.openInodes, h.nextPtr⟩

theorem SameMap.refl (σ : FsState) : SameMap σ σ := ⟨.refl σ, rfl⟩

theorem SameMap.trans {σ σ' σ'' : FsState} (h : SameMap σ σ') (h' : SameMap σ' σ'') :
    SameMap σ σ'' :=
  ⟨h.toSameTable.trans h'.toSameTable, h'.freeMap.trans h.freeMap⟩

theorem ignores_sameTable : Ignores SameTable where
  refl := .refl
  trans := .trans
  store _ _ := ⟨rfl, rfl, rfl, rfl⟩
  memory _ _ := ⟨rfl, rfl, rfl, rfl⟩

theorem ignores_sameMap : Ignores SameMap where
  refl := .refl
  trans := .trans
  store _ _ := ⟨⟨rfl, rfl, rfl, rfl⟩, rfl⟩
  memory _ _ := ⟨⟨rfl, rfl, rfl, rfl⟩, rfl⟩

/-- While the free map is kept in a file. -/
def Filed (R : FsState → FsState → Prop) (σ σ' : FsState) : Prop := σ.freeMapFile ≠ none → R σ σ'

theorem sparing_halt : Sparing (Filed SameMap) halt where
  refl σ _ := .refl σ
  trans h h' hfile := (h hfile).trans (h' ((h hfile).freeMapFile ▸ hfile))
  store σ store _ := ignores_sameMap.store σ store
  memory σ memory _ := ignores_sameMap.memory σ memory
  allocate cnt := by
    refine preserves_get_bind fun σ => ?_
    split
    · exact ensures_pure fun _ => .refl σ
    · refine ensures_set_bind ?_
      by_cases hfile : σ.freeMapFile = none
      · intro a σ' _ hfile'
        exact absurd hfile hfile'
      · rw [if_neg hfile]
        intro a σ' hrun
        cases hrun
  release sector cnt := by
    refine preserves_get_bind fun σ => ?_
    split
    · refine ensures_set_bind ?_
      intro a σ' hrun
      cases hrun
    · exact preserves_halt σ

/-- **`bitmap_write` changes the free map's file only**, not the free map. -/
theorem bitmapWrite_preserves (held : Option InodePtr) : Preserves SameMap (bitmapWrite held) := by
  refine preserves_get_bind fun σ => ?_
  split
  · exact preserves_halt σ
  · rename_i p hfile
    split
    · exact preserves_halt σ
    · intro a σ' hrun
      obtain ⟨written, σ₁, hwrite, hrun⟩ := run_bind_cases hrun
      cases hrun
      exact sparing_halt.inodeWriteAt p _ 0 σ _ _ hwrite (by rw [hfile]; simp)

theorem sparing_bitmapWrite (held : Option InodePtr) : Sparing SameTable (bitmapWrite held) where
  toIgnores := ignores_sameTable
  allocate cnt := by
    refine preserves_get_bind fun σ => ?_
    split
    · exact ensures_pure (.refl σ)
    · refine ensures_set_bind ?_
      split
      · exact ensures_pure ⟨rfl, rfl, rfl, rfl⟩
      · refine Ensures.seq (bitmapWrite_preserves held _) fun written σ₁ h₁ => ?_
        have hsame : SameTable σ σ₁ := h₁.toSameTable.remap
        split
        · exact ensures_pure hsame
        · intro a σ' hrun
          cases hrun
          exact .trans hsame ⟨rfl, rfl, rfl, rfl⟩
  release sector cnt := by
    refine preserves_get_bind fun σ => ?_
    split
    · refine ensures_set_bind ?_
      exact Ensures.seq (bitmapWrite_preserves held _) fun written σ₁ h₁ =>
        ensures_pure h₁.toSameTable.remap
    · exact preserves_halt σ

/-- **`inode_write_at` leaves the open inodes alone.** -/
theorem inodeWriteAt_preserves (p : InodePtr) (buffer : List UInt8) (offset : ℕ) :
    Preserves SameTable (inodeWriteAt p buffer offset) :=
  (sparing_bitmapWrite (some p)).inodeWriteAt p buffer offset

/-- **`inode_create` and `inode_create_dir` leave the open inodes alone.** -/
theorem createInode_preserves (kind : Bool) (sector : BlockSector) (length : Off) :
    Preserves SameTable (createInodeWith (bitmapWrite none) kind sector length) :=
  (sparing_bitmapWrite none).createInode kind sector length

/-- **`free_map_release`** frees the sectors, all of which were taken, and leaves
the rest of the free map and the open inodes alone. -/
theorem freeMapRelease_ensures (sector : BlockSector) (cnt : ℕ) (σ : FsState) :
    Ensures (freeMapRelease sector cnt) σ fun _ σ' => SameTable σ σ' ∧
      σ.freeMap.all sector.toNat cnt = true ∧
      σ'.freeMap = σ.freeMap.setMultiple sector.toNat cnt false := by
  intro a σ' hrun
  unfold freeMapRelease freeMapReleaseWith at hrun
  obtain ⟨σ₀, σ₀', hget, hrun⟩ := run_bind_cases hrun
  cases hget
  split at hrun
  · rename_i hall
    obtain ⟨_, σ₁, hset, hrun⟩ := run_bind_cases hrun
    cases hset
    obtain ⟨written, σ₂, hwrite, hrun⟩ := run_bind_cases hrun
    cases hrun
    have h := bitmapWrite_preserves none _ _ _ hwrite
    exact ⟨h.toSameTable.remap, hall.2, h.freeMap⟩
  · cases hrun

end Filesys
end CS162

/-
# Inodes over an ideal sector store

`projects1-3/src/filesys/inode.c`, lines 190-740, and
`projects1-3/src/filesys/free-map.c`.

`cache_read` and `cache_write` are reads and writes of `store`, one sector's
bytes each.  A `struct inode` is found by its address; `open_inodes` is the list
of the addresses of the open ones.  `memory` answers the requests for memory to
come.

`free_map_allocate` and `free_map_release` write the bitmap to the free map's
file, which is an inode like any other, so the functions of this file call each
other in a circle: `inode_write_at`, `inode_resize`, `allocate_blocks`,
`free_map_allocate`, `bitmap_write`, `inode_write_at`.  The circle is cut at
`bitmap_write`.  The functions that may reach it take what it does as a
parameter (`…With`); the real one writes to the free map's inode with a
`bitmap_write` that does not return, since growing the free map's file would
take its lock a second time.

An index outside an array, a null or freed pointer, a failed assertion and a
lock taken twice do not return.
-/

import CS162.Basis.Program
import CS162.Filesys.Bitmap
import CS162.Filesys.InodeDisk

namespace CS162
namespace Filesys

open CS162.Basis

/-- The address of a `struct inode`. -/
abbrev InodePtr := ℕ

/-- `struct inode`, without its list element, its lock and its unused copy of
the disk inode. -/
structure Inode where
  sector : BlockSector
  openCnt : ℤ
  removed : Bool
  denyWriteCnt : ℤ

/-- What the functions of this file work on. -/
structure FsState where
  /-- The content of every sector. -/
  store : BlockSector → Sector
  /-- `free_map`. -/
  freeMap : Bitmap
  /-- The inode of `free_map_file`. -/
  freeMapFile : Option InodePtr
  inodes : InodePtr → Option Inode
  /-- `open_inodes`. -/
  openInodes : List InodePtr
  /-- Whether the requests for memory to come are met. -/
  memory : ℕ → Bool
  /-- The next address handed out. -/
  nextPtr : InodePtr

/-- Every request for memory to come is met. -/
def FsState.Memory (σ : FsState) : Prop := ∀ n, σ.memory n = true

abbrev Kernel := Prog FsState

/-! ### Sectors and memory -/

/-- `cache_read (sector, …, 0, BLOCK_SECTOR_SIZE)`. -/
def readSector (sector : BlockSector) : Kernel Sector := do
  let σ ← get
  return σ.store sector

/-- `cache_write (sector, …, 0, BLOCK_SECTOR_SIZE)`. -/
def writeSector (sector : BlockSector) (s : Sector) : Kernel Unit :=
  modify fun σ => { σ with store := Function.update σ.store sector s }

/-- `cache_read (sector, …, offset, size)`. -/
def readBytes (sector : BlockSector) (offset size : ℕ) : Kernel (List UInt8) := do
  let σ ← get
  return slice (σ.store sector) offset size

/-- `cache_write (sector, buff, offset, |buff|)`. -/
def writeBytes (sector : BlockSector) (buff : List UInt8) (offset : ℕ) : Kernel Unit :=
  modify fun σ => { σ with
    store := Function.update σ.store sector (copyInto (σ.store sector) offset buff) }

/-- `malloc` or `calloc`: whether it delivers. -/
def alloc : Kernel Bool := do
  let σ ← get
  set { σ with memory := fun n => σ.memory (n + 1) }
  return σ.memory 0

/-- The state after a request for memory. -/
def FsState.shift (σ : FsState) : FsState := { σ with memory := fun n => σ.memory (n + 1) }

theorem run_alloc (σ : FsState) : alloc.run σ = some (σ.memory 0, σ.shift) := rfl

/-- The inode at an address. -/
def getInode (p : InodePtr) : Kernel Inode := do
  let σ ← get
  match σ.inodes p with
  | some inode => return inode
  | none => halt

theorem run_getInode {σ : FsState} {p : InodePtr} {inode : Inode} (h : σ.inodes p = some inode) :
    (getInode p).run σ = some (inode, σ) := by
  unfold getInode
  rw [run_bind_of_run (show (get : Kernel FsState).run σ = some (σ, σ) from rfl), h]
  rfl

/-- Change the inode at an address. -/
def setInode (p : InodePtr) (inode : Option Inode) : Kernel Unit :=
  modify fun σ => { σ with inodes := Function.update σ.inodes p inode }

/-! ### Reading -/

/-- `inode_length`. -/
def inodeLength (sector : BlockSector) : Kernel Off := do
  let d ← readSector sector
  return d.length

/-- `is_dir`. -/
def isDir (sector : BlockSector) : Kernel Bool := do
  let d ← readSector sector
  return d.isDir

/-- `byte_to_sector`. -/
def byteToSector (sector : BlockSector) (pos : ℕ) : Kernel BlockSector := do
  let length ← inodeLength sector
  if pos < length then
    let σ ← get
    match indexPath σ.store sector (pos / blockSectorSize) with
    | some sec => return sec
    | none => halt
  else return 0xffffffff

/-- `chunk_size` of one turn of the loops of `inode_read_at` and
`inode_write_at`: no more than what is asked for, than what is left of the
inode, and than what is left of the sector. -/
def chunkSize (length : Off) (size offset : ℕ) : ℤ :=
  min size (min (length - offset) (blockSectorSize - offset % blockSectorSize : ℕ))

/-- The loop of `inode_read_at`. -/
def readLoop (sector : BlockSector) (size offset : ℕ) : Kernel (List UInt8) :=
  if _hsize : size = 0 then return [] else do
    let sectorIdx ← byteToSector sector offset
    let length ← inodeLength sector
    if _hchunk : chunkSize length size offset ≤ 0 then return [] else
      let chunk := (chunkSize length size offset).toNat
      let bytes ← readBytes sectorIdx (offset % blockSectorSize) chunk
      let rest ← readLoop sector (size - chunk) (offset + chunk)
      return bytes ++ rest
termination_by size
decreasing_by omega

/-- `inode_read_at`: the bytes it leaves in its buffer. -/
def inodeReadAt (p : InodePtr) (size offset : ℕ) : Kernel (List UInt8) := do
  let inode ← getInode p
  readLoop inode.sector size offset

/-! ### Growing, shrinking and writing -/

section With

variable (bitmapWrite : Kernel Bool)

/-- `free_map_allocate (cnt, …)`: the first of the sectors allocated. -/
def freeMapAllocateWith (cnt : ℕ) : Kernel (Option BlockSector) := do
  let σ ← get
  match σ.freeMap.scanAndFlip 0 cnt false with
  | none => return none
  | some (sector, freeMap) =>
    set { σ with freeMap := freeMap }
    if σ.freeMapFile = none then return some (UInt32.ofNat sector)
    else
      let written ← bitmapWrite
      if written then return some (UInt32.ofNat sector)
      else
        modify fun σ => { σ with freeMap := σ.freeMap.setMultiple sector cnt false }
        return none

/-- `free_map_release (sector, cnt)`. -/
def freeMapReleaseWith (sector : BlockSector) (cnt : ℕ) : Kernel Unit := do
  let σ ← get
  if σ.freeMap.InRange sector.toNat cnt ∧ σ.freeMap.all sector.toNat cnt = true then
    set { σ with freeMap := σ.freeMap.setMultiple sector.toNat cnt false }
    let _ ← bitmapWrite
  else halt

/-- A loop of `allocate_blocks` over entries of a table: an entry that is `0`
gets a new block while fewer than `blocks` are allocated.  Whether the loop was
not left by `return false`, the table, and the count of blocks allocated. -/
def fillEntries (blocks : ℕ) : List (Fin 128) → Sector → ℕ → Kernel (Bool × Sector × ℕ)
  | [], table, allocated => return (true, table, allocated)
  | i :: is, table, allocated =>
    if allocated < blocks then
      if table.word i = 0 then do
        let newBlock ← freeMapAllocateWith bitmapWrite 1
        match newBlock with
        | none => return (false, table, allocated)
        | some sec => fillEntries blocks is (table.setWord i sec) (allocated + 1)
      else fillEntries blocks is table allocated
    else return (true, table, allocated)

/-- A table of blocks, allocated and zeroed if its entry is `0`. -/
def openTable (entry : BlockSector) : Kernel (Option BlockSector) :=
  if entry = 0 then do
    let newTable ← freeMapAllocateWith bitmapWrite 1
    match newTable with
    | none => return none
    | some sec =>
      writeSector sec Sector.zero
      return some sec
  else return some entry

/-- The loop of `allocate_blocks` over the doubly indirect block. -/
def fillTables (blocks : ℕ) : List (Fin 128) → Sector → ℕ → Kernel (Bool × Sector × ℕ)
  | [], doubly, allocated => return (true, doubly, allocated)
  | i :: is, doubly, allocated =>
    if allocated < blocks then do
      let table ← openTable bitmapWrite (doubly.word i)
      match table with
      | none => return (false, doubly, allocated)
      | some sec =>
        let indirect ← readSector sec
        let (ok, indirect, allocated) ←
          fillEntries bitmapWrite blocks (List.finRange 128) indirect allocated
        if ok then
          writeSector sec indirect
          fillTables blocks is (doubly.setWord i sec) allocated
        else return (false, doubly.setWord i sec, allocated)
    else return (true, doubly, allocated)

/-- The indirect part of `allocate_blocks`. -/
def allocateIndirect (blocks : ℕ) (d : Sector) (allocated : ℕ) : Kernel (Bool × Sector × ℕ) := do
  let table ← openTable bitmapWrite d.indirect
  match table with
  | none => return (false, d, allocated)
  | some sec =>
    let indirect ← readSector sec
    let (ok, indirect, allocated) ←
      fillEntries bitmapWrite blocks (List.finRange 128) indirect allocated
    writeSector sec indirect
    return (ok, d.setIndirect sec, allocated)

/-- The doubly indirect part of `allocate_blocks`. -/
def allocateDoubly (blocks : ℕ) (d : Sector) (allocated : ℕ) : Kernel (Bool × Sector × ℕ) := do
  let table ← openTable bitmapWrite d.doublyIndirect
  match table with
  | none => return (false, d, allocated)
  | some sec =>
    let doubly ← readSector sec
    let (ok, doubly, allocated) ←
      fillTables bitmapWrite blocks (List.finRange 128) doubly allocated
    writeSector sec doubly
    return (ok, d.setDoublyIndirect sec, allocated)

/-- `allocate_blocks`: whether it succeeded, and the disk inode it leaves. -/
def allocateBlocksWith (d : Sector) (blocks : ℕ) : Kernel (Bool × Sector) := do
  let (ok, d, allocated) ← fillEntries bitmapWrite blocks directIndices d 0
  if ok = false then return (false, d)
  else if allocated < blocks then
    let (ok, d, allocated) ← allocateIndirect bitmapWrite blocks d allocated
    if ok = false then return (false, d)
    else if allocated < blocks then
      let (ok, d, _) ← allocateDoubly bitmapWrite blocks d allocated
      return (ok, d)
    else return (true, d)
  else return (true, d)

/-- A loop of `free_blocks` over entries of a table: an entry that is not `0` is
released and cleared while fewer than `blocks` are freed. -/
def clearEntries (blocks : ℕ) : List (Fin 128) → Sector → ℕ → Kernel (Sector × ℕ)
  | [], table, freed => return (table, freed)
  | i :: is, table, freed =>
    if freed < blocks then
      if table.word i ≠ 0 then do
        freeMapReleaseWith bitmapWrite (table.word i) 1
        clearEntries blocks is (table.setWord i 0) (freed + 1)
      else clearEntries blocks is table freed
    else return (table, freed)

/-- The loop of `free_blocks` over the doubly indirect block. -/
def clearTables (blocks : ℕ) : List (Fin 128) → Sector → ℕ → Kernel (Sector × ℕ)
  | [], doubly, freed => return (doubly, freed)
  | i :: is, doubly, freed =>
    if freed < blocks then
      if doubly.word i ≠ 0 then do
        let indirect ← readSector (doubly.word i)
        let (indirect, freed) ←
          clearEntries bitmapWrite blocks (List.finRange 128) indirect freed
        writeSector (doubly.word i) indirect
        freeMapReleaseWith bitmapWrite (doubly.word i) 1
        clearTables blocks is (doubly.setWord i 0) freed
      else clearTables blocks is doubly freed
    else return (doubly, freed)

/-- The end of an indexed part of `free_blocks`: the table is written back if
enough was freed, else it is released; its entry after that. -/
def closeTable (blocks : ℕ) (entry : BlockSector) (table : Sector) (freed : ℕ) :
    Kernel BlockSector :=
  if blocks ≤ freed then do
    writeSector entry table
    return entry
  else do
    freeMapReleaseWith bitmapWrite entry 1
    return 0

/-- The indirect part of `free_blocks`. -/
def freeIndirect (blocks : ℕ) (d : Sector) (freed : ℕ) : Kernel (Sector × ℕ) :=
  if freed < blocks ∧ d.indirect ≠ 0 then do
    let indirect ← readSector d.indirect
    let (indirect, freed) ←
      clearEntries bitmapWrite blocks (List.finRange 128) indirect freed
    let entry ← closeTable bitmapWrite blocks d.indirect indirect freed
    return (d.setIndirect entry, freed)
  else return (d, freed)

/-- The doubly indirect part of `free_blocks`. -/
def freeDoubly (blocks : ℕ) (d : Sector) (freed : ℕ) : Kernel (Sector × ℕ) :=
  if freed < blocks ∧ d.doublyIndirect ≠ 0 then do
    let doubly ← readSector d.doublyIndirect
    let (doubly, freed) ← clearTables bitmapWrite blocks (List.finRange 128) doubly freed
    let entry ← closeTable bitmapWrite blocks d.doublyIndirect doubly freed
    return (d.setDoublyIndirect entry, freed)
  else return (d, freed)

/-- `free_blocks`: the disk inode it leaves. -/
def freeBlocksWith (d : Sector) (blocks : ℕ) : Kernel Sector := do
  let (d, freed) ← clearEntries bitmapWrite blocks directIndices d 0
  let (d, freed) ← freeIndirect bitmapWrite blocks d freed
  let (d, _) ← freeDoubly bitmapWrite blocks d freed
  return d

/-- The end of `inode_resize`. -/
def setDiskLength (sector : BlockSector) (d : Sector) (newSize : Off) : Kernel Bool := do
  writeSector sector (d.setLength newSize)
  return true

/-- `inode_resize`. -/
def inodeResizeWith (sector : BlockSector) (newSize : Off) : Kernel Bool := do
  let delivered ← alloc
  if delivered = false then return false
  else
    let d ← readSector sector
    let oldSectors := bytesToSectors d.length
    let newSectors := bytesToSectors newSize
    if newSectors < oldSectors then
      let d ← freeBlocksWith bitmapWrite d (oldSectors - newSectors)
      setDiskLength sector d newSize
    else if oldSectors < newSectors then
      let (ok, d) ← allocateBlocksWith bitmapWrite d (newSectors - oldSectors)
      if ok = false then
        let _ ← freeBlocksWith bitmapWrite d (newSectors - oldSectors)
        return false
      else setDiskLength sector d newSize
    else setDiskLength sector d newSize

/-- The loop of `inode_write_at`: the number of bytes written. -/
def writeLoop (sector : BlockSector) (buffer : List UInt8) (offset : ℕ) : Kernel ℕ :=
  if _hsize : buffer.length = 0 then return 0 else do
    let sectorIdx ← byteToSector sector offset
    let length ← inodeLength sector
    if _hchunk : chunkSize length buffer.length offset ≤ 0 then return 0 else
      let chunk := (chunkSize length buffer.length offset).toNat
      writeBytes sectorIdx (buffer.take chunk) (offset % blockSectorSize)
      let rest ← writeLoop sector (buffer.drop chunk) (offset + chunk)
      return chunk + rest
termination_by buffer.length
decreasing_by
  rw [List.length_drop]
  omega

/-- `inode_write_at (inode, buffer, |buffer|, offset)`. -/
def inodeWriteAtWith (p : InodePtr) (buffer : List UInt8) (offset : ℕ) : Kernel ℕ := do
  let inode ← getInode p
  if inode.denyWriteCnt ≠ 0 then return 0
  else
    let newSize := wrap32 (offset + buffer.length)
    let length ← inodeLength inode.sector
    if length ≤ newSize then
      let ok ← inodeResizeWith bitmapWrite inode.sector newSize
      if ok = false then return 0 else writeLoop inode.sector buffer offset
    else writeLoop inode.sector buffer offset

/-- `inode_create` and `inode_create_dir`. -/
def createInodeWith (kind : Bool) (sector : BlockSector) (length : Off) : Kernel Bool :=
  if length < 0 then halt else do
    let delivered ← alloc
    if delivered = false then return false
    else
      let (ok, d) ←
        allocateBlocksWith bitmapWrite (newInodeDisk length kind) (bytesToSectors length)
      if ok = false then return false
      else
        writeSector sector d
        return true

end With

/-! ### The functions as they are called -/

/-- `bitmap_write (free_map, free_map_file)`, by a thread that holds the lock of
the inode `held`. -/
def bitmapWrite (held : Option InodePtr) : Kernel Bool := do
  let σ ← get
  match σ.freeMapFile with
  | none => halt
  | some p =>
    if held = some p then halt
    else
      let written ← inodeWriteAtWith halt p σ.freeMap.bytes 0
      return written == σ.freeMap.byteCnt

/-- `free_map_allocate`. -/
def freeMapAllocate (cnt : ℕ) : Kernel (Option BlockSector) :=
  freeMapAllocateWith (bitmapWrite none) cnt

/-- `free_map_release`. -/
def freeMapRelease (sector : BlockSector) (cnt : ℕ) : Kernel Unit :=
  freeMapReleaseWith (bitmapWrite none) sector cnt

/-- `allocate_blocks`. -/
def allocateBlocks (d : Sector) (blocks : ℕ) : Kernel (Bool × Sector) :=
  allocateBlocksWith (bitmapWrite none) d blocks

/-- `inode_create`. -/
def inodeCreate (sector : BlockSector) (length : Off) : Kernel Bool :=
  createInodeWith (bitmapWrite none) false sector length

/-- `inode_create_dir`. -/
def inodeCreateDir (sector : BlockSector) (length : Off) : Kernel Bool :=
  createInodeWith (bitmapWrite none) true sector length

/-- `inode_write_at`, which holds the inode's lock. -/
def inodeWriteAt (p : InodePtr) (buffer : List UInt8) (offset : ℕ) : Kernel ℕ :=
  inodeWriteAtWith (bitmapWrite (some p)) p buffer offset

/-- `inode_resize`, by a thread that holds the lock of the inode `held`. -/
def inodeResize (held : Option InodePtr) (sector : BlockSector) (newSize : Off) : Kernel Bool :=
  inodeResizeWith (bitmapWrite held) sector newSize

/-- `inode_reopen`. -/
def inodeReopen (p : InodePtr) : Kernel Unit := do
  let inode ← getInode p
  setInode p (some { inode with openCnt := inode.openCnt + 1 })

/-- `inode_open`; `none` is a null pointer. -/
def inodeOpen (sector : BlockSector) : Kernel (Option InodePtr) := do
  let σ ← get
  match σ.openInodes.find? fun p => (σ.inodes p).any fun inode => inode.sector == sector with
  | some p =>
    inodeReopen p
    return some p
  | none =>
    let delivered ← alloc
    if delivered = false then return none
    else
      let σ ← get
      let p := σ.nextPtr
      set { σ with
        inodes := Function.update σ.inodes p (some ⟨sector, 1, false, 0⟩)
        openInodes := p :: σ.openInodes
        nextPtr := p + 1 }
      return some p

/-- `inode_remove`. -/
def inodeRemove (p : InodePtr) : Kernel Unit := do
  let inode ← getInode p
  setInode p (some { inode with removed := true })

/-- `inode_close`. -/
def inodeClose (p : InodePtr) : Kernel Unit := do
  let inode ← getInode p
  setInode p (some { inode with openCnt := inode.openCnt - 1 })
  if inode.openCnt - 1 = 0 then
    modify fun σ => { σ with openInodes := σ.openInodes.erase p }
    if inode.removed then freeMapRelease inode.sector 1
    setInode p none

/-- `FREE_MAP_SECTOR`. -/
def freeMapSector : BlockSector := 0

/-- `ROOT_DIR_SECTOR`. -/
def rootDirSector : BlockSector := 1

/-- `free_map_init` on a device of `size` sectors. -/
def freeMapInit (size : BlockSector) : Bitmap :=
  let empty : Bitmap := ⟨size.toNat, fun _ => false, size.toNat_lt⟩
  (empty.setMultiple freeMapSector.toNat 1 true).setMultiple rootDirSector.toNat 1 true

/-- `free_map_create`. -/
def freeMapCreate : Kernel Unit := do
  let σ ← get
  let created ← inodeCreate freeMapSector σ.freeMap.byteCnt
  if created = false then halt
  else
    let opened ← inodeOpen freeMapSector
    match opened with
    | none => halt
    | some p =>
      -- `file_open` allocates a `struct file`
      let delivered ← alloc
      if delivered = false then halt
      else
        modify fun σ => { σ with freeMapFile := some p }
        let written ← bitmapWrite none
        if written = false then halt

end Filesys
end CS162

/-
# Files in consecutive sectors

`proj-pregame/src/filesys/inode.c`, lines 26-46 and 162-285, and
`proj-pregame/src/devices/block.c`, lines 97-112: `inode_read_at` and
`inode_write_at` of the kernel as it is handed out, where a file lies in the sectors
from `start` on.

A whole sector goes directly between the device and the caller's buffer; any other
chunk goes through the bounce buffer, into which a write first reads the sector
unless the chunk covers it.  `Device.bytes` is the device as an array of bytes.  The
main result is `contiguous_io`: both functions read and overwrite one run of that
array, whatever path each sector takes, and so do any number of calls that continue
where the last one stopped.
-/

import CS162.Basis.Blocks
import CS162.Filesys.Inode

namespace CS162
namespace Pregame

open CS162.Basis
open CS162.Filesys (BlockSector Sector blockSectorSize chunkSize)

/-- `struct inode` with the fields of its `struct inode_disk` that reading and
writing use. -/
structure Inode where
  start : BlockSector
  length : ℤ
  denyWriteCnt : ℤ

/-- The block device and the memory. -/
structure Device where
  /-- The number of sectors. -/
  size : BlockSector
  store : BlockSector → Sector
  /-- What the blocks of memory to come hold; `none` when there is none. -/
  memory : ℕ → Option Sector

abbrev Kernel := Prog Device

/-- Every request for memory to come is met. -/
def Device.Memory (σ : Device) : Prop := ∀ n, σ.memory n ≠ none

/-- `block_read`. -/
def blockRead (sector : BlockSector) : Kernel Sector := do
  let σ ← get
  if sector < σ.size then return σ.store sector else halt

/-- `block_write`. -/
def blockWrite (sector : BlockSector) (s : Sector) : Kernel Unit := do
  let σ ← get
  if sector < σ.size then set { σ with store := Function.update σ.store sector s } else halt

/-- `malloc (BLOCK_SECTOR_SIZE)`. -/
def mallocSector : Kernel (Option Sector) := do
  let σ ← get
  set { σ with memory := fun n => σ.memory (n + 1) }
  return σ.memory 0

/-- The bounce buffer, allocated if there is none yet. -/
def bounceBuffer : Option Sector → Kernel (Option Sector)
  | some bounce => return some bounce
  | none => mallocSector

/-- `byte_to_sector`. -/
def byteToSector (inode : Inode) (pos : ℕ) : BlockSector :=
  if pos < inode.length then inode.start + UInt32.ofNat (pos / blockSectorSize) else 0xffffffff

/-- The loop of `inode_read_at`. -/
def readLoop (inode : Inode) (size offset : ℕ) (bounce : Option Sector) : Kernel (List UInt8) :=
  if _hsize : size = 0 then return [] else
    let sectorIdx := byteToSector inode offset
    let sectorOfs := offset % blockSectorSize
    if _hchunk : chunkSize inode.length size offset ≤ 0 then return [] else
      let chunk := (chunkSize inode.length size offset).toNat
      if sectorOfs = 0 ∧ chunk = blockSectorSize then do
        let s ← blockRead sectorIdx
        let rest ← readLoop inode (size - chunk) (offset + chunk) bounce
        return List.ofFn s ++ rest
      else do
        let buffer ← bounceBuffer bounce
        match buffer with
        | none => return []
        | some _ =>
          let s ← blockRead sectorIdx
          let rest ← readLoop inode (size - chunk) (offset + chunk) (some s)
          return slice s sectorOfs chunk ++ rest
termination_by size
decreasing_by all_goals omega

/-- `inode_read_at`: the bytes it leaves in its buffer. -/
def inodeReadAt (inode : Inode) (size offset : ℕ) : Kernel (List UInt8) :=
  readLoop inode size offset none

/-- The sector of these bytes. -/
def sectorOf (bytes : List UInt8) : Sector := fun i => bytes.getD i 0

/-- The loop of `inode_write_at`: the number of bytes written. -/
def writeLoop (inode : Inode) (buffer : List UInt8) (offset : ℕ) (bounce : Option Sector) :
    Kernel ℕ :=
  if _hsize : buffer.length = 0 then return 0 else
    let sectorIdx := byteToSector inode offset
    let sectorOfs := offset % blockSectorSize
    let sectorLeft := blockSectorSize - sectorOfs
    if _hchunk : chunkSize inode.length buffer.length offset ≤ 0 then return 0 else
      let chunk := (chunkSize inode.length buffer.length offset).toNat
      if sectorOfs = 0 ∧ chunk = blockSectorSize then do
        blockWrite sectorIdx (sectorOf (buffer.take chunk))
        let rest ← writeLoop inode (buffer.drop chunk) (offset + chunk) bounce
        return chunk + rest
      else do
        let allocated ← bounceBuffer bounce
        match allocated with
        | none => return 0
        | some _ =>
          let s ← if 0 < sectorOfs ∨ chunk < sectorLeft then blockRead sectorIdx
            else pure Sector.zero
          let s := copyInto s sectorOfs (buffer.take chunk)
          blockWrite sectorIdx s
          let rest ← writeLoop inode (buffer.drop chunk) (offset + chunk) (some s)
          return chunk + rest
termination_by buffer.length
decreasing_by
  all_goals
    rw [List.length_drop]
    omega

/-- `inode_write_at (inode, buffer, |buffer|, offset)`. -/
def inodeWriteAt (inode : Inode) (buffer : List UInt8) (offset : ℕ) : Kernel ℕ :=
  if inode.denyWriteCnt ≠ 0 then return 0 else writeLoop inode buffer offset none

/-! ### The device as an array of bytes -/

/-- The sectors of the device by number. -/
def Device.blocks (σ : Device) : ℕ → Sector := fun b => σ.store (UInt32.ofNat b)

/-- The bytes of the device, sector after sector. -/
def Device.bytes (σ : Device) : ℕ → UInt8 := entry σ.blocks

/-- The data of the inode lies on the device. -/
def Inode.OnDevice (inode : Inode) (σ : Device) : Prop :=
  inode.start.toNat + (inode.length.toNat + 511) / 512 ≤ σ.size.toNat

instance (inode : Inode) (σ : Device) : Decidable (inode.OnDevice σ) :=
  inferInstanceAs (Decidable (_ ≤ _))

/-- The place of the byte at `offset` on the device. -/
def Inode.place (inode : Inode) (offset : ℕ) : ℕ := 512 * inode.start.toNat + offset

/-- How many bytes a call on `size` bytes at `offset` moves. -/
def Inode.count (inode : Inode) (size offset : ℕ) : ℕ :=
  min size (inode.length - offset).toNat

section

variable {inode : Inode} {σ σ' : Device} {offset size : ℕ}

theorem place_div (inode : Inode) (offset : ℕ) :
    inode.place offset / 512 = inode.start.toNat + offset / 512 := by
  unfold Inode.place
  omega

theorem place_mod (inode : Inode) (offset : ℕ) : inode.place offset % 512 = offset % 512 := by
  unfold Inode.place
  omega

theorem place_add (inode : Inode) (offset k : ℕ) :
    inode.place (offset + k) = inode.place offset + k :=
  (Nat.add_assoc ..).symm

/-- The sectors of the file are on the device. -/
theorem Inode.OnDevice.lt (h : inode.OnDevice σ) (hpos : (offset : ℤ) < inode.length) :
    inode.place offset / 512 < σ.size.toNat := by
  rw [place_div]
  unfold Inode.OnDevice at h
  omega

/-- **`byte_to_sector`** finds the sector a byte of the file is in. -/
theorem byteToSector_eq (hpos : (offset : ℤ) < inode.length) :
    byteToSector inode offset = UInt32.ofNat (inode.place offset / 512) := by
  rw [byteToSector, if_pos hpos, place_div, UInt32.ofNat_add, UInt32.ofNat_toNat]
  rfl

/-- The chunk of one turn. -/
theorem chunkSize_toNat (length : ℤ) (size offset : ℕ) :
    (chunkSize length size offset).toNat =
      min size (min (length - offset).toNat (512 - offset % 512)) := by
  unfold chunkSize blockSectorSize
  omega

/-- A turn without a chunk is past the end of the file. -/
theorem chunkSize_le_zero {length : ℤ} (hsize : size ≠ 0) :
    chunkSize length size offset ≤ 0 ↔ length ≤ offset := by
  unfold chunkSize blockSectorSize
  omega

/-- A request for the bounce buffer is met. -/
theorem bounceBuffer_returns (hmem : σ.Memory) (bounce : Option Sector) :
    Returns (bounceBuffer bounce) σ fun buffer σ' =>
      buffer ≠ none ∧ σ'.size = σ.size ∧ σ'.store = σ.store ∧ σ'.Memory := by
  cases bounce with
  | some bounce =>
    unfold bounceBuffer
    rw [returns_pure]
    exact ⟨by simp, rfl, rfl, hmem⟩
  | none =>
    unfold bounceBuffer mallocSector
    rw [returns_get_bind, returns_set_bind, returns_pure]
    exact ⟨hmem 0, rfl, rfl, fun n => hmem (n + 1)⟩

theorem run_blockRead {sector : BlockSector} (h : sector < σ.size) :
    (blockRead sector).run σ = some (σ.store sector, σ) := by
  unfold blockRead
  rw [run_bind_of_run (a := σ) (t := σ) rfl, if_pos h]
  rfl

theorem run_blockWrite {sector : BlockSector} {s : Sector} (h : sector < σ.size) :
    (blockWrite sector s).run σ =
      some ((), { σ with store := Function.update σ.store sector s }) := by
  unfold blockWrite
  rw [run_bind_of_run (a := σ) (t := σ) rfl, if_pos h]
  rfl

/-- The sector of a byte of the file, as a number. -/
theorem Inode.OnDevice.toNat_ofNat (h : inode.OnDevice σ) (hpos : (offset : ℤ) < inode.length) :
    (UInt32.ofNat (inode.place offset / 512)).toNat = inode.place offset / 512 :=
  UInt32.toNat_ofNat_of_lt' ((h.lt hpos).trans σ.size.toNat_lt)

/-- The sector of a byte of the file is on the device. -/
theorem Inode.OnDevice.sector_lt (h : inode.OnDevice σ) (hpos : (offset : ℤ) < inode.length) :
    UInt32.ofNat (inode.place offset / 512) < σ.size := by
  rw [UInt32.lt_iff_toNat_lt, h.toNat_ofNat hpos]
  exact h.lt hpos

/-- A turn moves one chunk, and the rest of the call what is left. -/
theorem Inode.count_chunk (inode : Inode) (size offset : ℕ) {chunk : ℕ}
    (hchunk : chunk = min size (min (inode.length - offset).toNat (512 - offset % 512))) :
    inode.count size offset = chunk + inode.count (size - chunk) (offset + chunk) := by
  unfold Inode.count
  omega

/-- Nothing is moved past the end of the file. -/
theorem Inode.count_eq_zero (h : inode.length ≤ offset) : inode.count size offset = 0 := by
  unfold Inode.count
  omega

end

/-! ### Reading -/

/-- The sectors are as they were. -/
structure Device.Kept (σ σ' : Device) : Prop where
  size : σ'.size = σ.size
  store : σ'.store = σ.store
  memory : σ.Memory → σ'.Memory

namespace Device.Kept

variable {inode : Inode} {σ σ' σ'' : Device}

theorem refl (σ : Device) : Device.Kept σ σ := ⟨rfl, rfl, id⟩

theorem trans (h : Device.Kept σ σ') (h' : Device.Kept σ' σ'') : Device.Kept σ σ'' :=
  ⟨h'.size.trans h.size, h'.store.trans h.store, h'.memory ∘ h.memory⟩

theorem onDevice (h : Device.Kept σ σ') (hdev : inode.OnDevice σ) : inode.OnDevice σ' := by
  unfold Inode.OnDevice
  rw [h.size]
  exact hdev

theorem blocks (h : Device.Kept σ σ') : σ'.blocks = σ.blocks := by
  unfold Device.blocks
  rw [h.store]

theorem bytes (h : Device.Kept σ σ') : σ'.bytes = σ.bytes := by
  unfold Device.bytes
  rw [h.blocks]

end Device.Kept

/-- **The loop of `inode_read_at`** reads a run of the bytes of the device, on both
paths.  By induction on the bytes still asked for. -/
theorem readLoop_returns {inode : Inode} (size : ℕ) : ∀ {σ : Device} {offset : ℕ}
    {bounce : Option Sector}, inode.OnDevice σ → σ.Memory →
    Returns (readLoop inode size offset bounce) σ fun bytes σ' =>
      bytes = run σ.bytes (inode.place offset) (inode.count size offset) ∧ σ.Kept σ' := by
  induction size using Nat.strong_induction_on with
  | _ size ih =>
    intro σ offset bounce hdev hmem
    rw [readLoop]
    dsimp only
    split_ifs with hsize hchunk hfull
    · subst hsize
      rw [returns_pure, Inode.count, Nat.zero_min]
      exact ⟨rfl, .refl σ⟩
    · rw [chunkSize_le_zero hsize] at hchunk
      rw [returns_pure, Inode.count_eq_zero hchunk]
      exact ⟨rfl, .refl σ⟩
    -- a whole sector, read into the caller's buffer
    · rw [chunkSize_le_zero hsize, not_le] at hchunk
      rw [byteToSector_eq hchunk, returns_bind_of_run (run_blockRead (hdev.sector_lt hchunk))]
      set chunk := (chunkSize inode.length size offset).toNat with hc
      rw [chunkSize_toNat] at hc
      obtain ⟨hofs, hall⟩ : offset % 512 = 0 ∧ chunk = 512 := hfull
      have hslice : List.ofFn (σ.store (UInt32.ofNat (inode.place offset / 512))) =
          run σ.bytes (inode.place offset) chunk := by
        have hrun := slice_block σ.blocks (by
          rw [place_mod]
          omega : inode.place offset % 512 + chunk ≤ 512)
        rw [place_mod, hofs, hall, slice_all] at hrun
        rw [hall]
        exact hrun
      refine (ih (size - chunk) (by omega) hdev hmem).seq fun rest σ₁ h₁ => ?_
      obtain ⟨rfl, hkept⟩ := h₁
      rw [returns_pure, inode.count_chunk size offset hc, run_add, place_add, hslice]
      exact ⟨rfl, hkept⟩
    -- part of a sector, through the bounce buffer
    · rw [chunkSize_le_zero hsize, not_le] at hchunk
      refine (bounceBuffer_returns hmem bounce).seq fun buffer σ₁ h₁ => ?_
      obtain ⟨hsome, hsize₁, hstore₁, hmem₁⟩ := h₁
      have hkept₁ : σ.Kept σ₁ := ⟨hsize₁, hstore₁, fun _ => hmem₁⟩
      obtain ⟨b, rfl⟩ := Option.ne_none_iff_exists'.1 hsome
      have hdev₁ := hkept₁.onDevice hdev
      dsimp only
      rw [byteToSector_eq hchunk, returns_bind_of_run (run_blockRead (hdev₁.sector_lt hchunk))]
      set chunk := (chunkSize inode.length size offset).toNat with hc
      rw [chunkSize_toNat] at hc
      have hslice := slice_block σ₁.blocks (by
        rw [place_mod]
        omega : inode.place offset % 512 + chunk ≤ 512)
      rw [place_mod] at hslice
      refine (ih (size - chunk) (by omega) hdev₁ hmem₁).seq fun rest σ₂ h₂ => ?_
      obtain ⟨rfl, hkept₂⟩ := h₂
      rw [returns_pure, inode.count_chunk size offset hc, run_add, place_add, ← hkept₁.bytes]
      exact ⟨congrArg (· ++ _) hslice, hkept₁.trans hkept₂⟩

/-- **`inode_read_at`** reads the bytes of the file that there are. -/
theorem inodeReadAt_returns {inode : Inode} {σ : Device} (hdev : inode.OnDevice σ)
    (hmem : σ.Memory) (size offset : ℕ) :
    Returns (inodeReadAt inode size offset) σ fun bytes σ' =>
      bytes = run σ.bytes (inode.place offset) (inode.count size offset) ∧ σ.Kept σ' :=
  readLoop_returns size hdev hmem

/-! ### Writing -/

/-- The bytes from `off` on are replaced, and no other byte of any sector is. -/
structure Overwrote (off : ℕ) (bytes : List UInt8) (σ σ' : Device) : Prop where
  size : σ'.size = σ.size
  memory : σ.Memory → σ'.Memory
  bytes : ∀ j < 512 * 2 ^ 32, σ'.bytes j = overwrite σ.bytes off bytes j

namespace Overwrote

variable {inode : Inode} {σ σ' σ'' : Device} {off : ℕ} {xs ys : List UInt8}

theorem of_kept (h : σ.Kept σ') : Overwrote off [] σ σ' :=
  ⟨h.size, h.memory, fun j _ => by rw [overwrite_nil, h.bytes]⟩

theorem onDevice (h : Overwrote off xs σ σ') (hdev : inode.OnDevice σ) : inode.OnDevice σ' := by
  unfold Inode.OnDevice
  rw [h.size]
  exact hdev

/-- Two runs that follow each other. -/
theorem append (h : Overwrote off xs σ σ') (h' : Overwrote (off + xs.length) ys σ' σ'') :
    Overwrote off (xs ++ ys) σ σ'' where
  size := h'.size.trans h.size
  memory := h'.memory ∘ h.memory
  bytes j hj := by
    rw [h'.bytes j hj, ← overwrite_append]
    exact overwrite_congr (h.bytes j hj)

/-- **One sector** is written back with a chunk copied in. -/
theorem chunk (hoff : off / 512 < σ.size.toNat) (hfit : off % 512 + xs.length ≤ 512) :
    Overwrote off xs σ { σ with
      store := Function.update σ.store (UInt32.ofNat (off / 512))
        (copyInto (σ.blocks (off / 512)) (off % 512) xs) } where
  size := rfl
  memory := id
  bytes j hj := by
    have hcopy : _ = overwrite σ.bytes off xs := entry_copyInto σ.blocks hfit
    rw [← hcopy]
    refine entry_congr ?_
    by_cases hb : j / 512 = off / 512
    · rw [hb, Function.update_self]
      exact Function.update_self ..
    · rw [Function.update_of_ne hb]
      refine Function.update_of_ne (fun he => hb ?_) _ _
      have hto := congrArg UInt32.toNat he
      have hj' : j / 512 < UInt32.size := by
        show j / 512 < 2 ^ 32
        omega
      rwa [UInt32.toNat_ofNat_of_lt' hj',
        UInt32.toNat_ofNat_of_lt' (hoff.trans σ.size.toNat_lt)] at hto

/-- Every byte of every sector. -/
theorem store (h : Overwrote off xs σ σ') (s : BlockSector) (i : Fin 512) :
    σ'.store s i = overwrite σ.bytes off xs (512 * s.toNat + i) := by
  have hs := s.toNat_lt
  rw [← h.bytes _ (by omega)]
  have hdiv : (512 * s.toNat + i) / 512 = s.toNat := by omega
  have hmod : Fin.ofNat 512 (512 * s.toNat + i) = i := by
    refine Fin.ext ?_
    show (512 * s.toNat + i) % 512 = i
    omega
  rw [Device.bytes, entry, hmod, hdiv, Device.blocks, UInt32.ofNat_toNat]

end Overwrote

/-- A whole sector of new bytes keeps nothing of the old ones. -/
theorem sectorOf_eq {bytes : List UInt8} (h : bytes.length = 512) (d : Sector) :
    sectorOf bytes = copyInto d 0 bytes := by
  funext i
  have hi : i.val < bytes.length := by
    rw [h]
    exact i.isLt
  rw [copyInto_inside d (Nat.zero_le _) hi]
  show bytes.getD i.val 0 = bytes[i.val]
  rw [List.getD_eq_getElem?_getD, List.getElem?_eq_getElem hi]
  rfl

/-- **The loop of `inode_write_at`** overwrites a run of the bytes of the device, on
both paths.  By induction on the number of bytes still to be written. -/
theorem writeLoop_returns {inode : Inode} (k : ℕ) : ∀ {σ : Device} {buffer : List UInt8}
    {offset : ℕ} {bounce : Option Sector}, buffer.length = k → inode.OnDevice σ → σ.Memory →
    Returns (writeLoop inode buffer offset bounce) σ fun n σ' =>
      n = inode.count buffer.length offset ∧
        Overwrote (inode.place offset) (buffer.take n) σ σ' := by
  induction k using Nat.strong_induction_on with
  | _ k ih =>
    intro σ buffer offset bounce hk hdev hmem
    rw [writeLoop]
    dsimp only
    split_ifs with hsize hchunk hfull hpart
    · rw [returns_pure, Inode.count, hsize, Nat.zero_min]
      exact ⟨rfl, .of_kept (.refl σ)⟩
    · rw [chunkSize_le_zero hsize] at hchunk
      rw [returns_pure, Inode.count_eq_zero hchunk]
      exact ⟨rfl, .of_kept (.refl σ)⟩
    -- a whole sector, written from the caller's buffer
    · rw [chunkSize_le_zero hsize, not_le] at hchunk
      rw [byteToSector_eq hchunk, returns_bind_of_run (run_blockWrite (hdev.sector_lt hchunk))]
      set chunk := (chunkSize inode.length buffer.length offset).toNat with hc
      rw [chunkSize_toNat] at hc
      obtain ⟨hofs, hall⟩ : offset % 512 = 0 ∧ chunk = 512 := hfull
      have hlen : (buffer.take chunk).length = chunk := by
        rw [List.length_take]
        omega
      have hfit : inode.place offset % 512 + (buffer.take chunk).length ≤ 512 := by
        rw [place_mod, hlen]
        omega
      have hw := Overwrote.chunk (hdev.lt hchunk) hfit
      rw [place_mod, hofs, ← sectorOf_eq (hlen.trans hall)] at hw
      refine (ih (buffer.length - chunk) (by omega) (List.length_drop ..) (hw.onDevice hdev)
        (hw.memory hmem)).seq fun rest σ₁ h₁ => ?_
      obtain ⟨rfl, hw'⟩ := h₁
      rw [List.length_drop] at hw' ⊢
      rw [place_add, ← hlen, hlen] at hw'
      rw [returns_pure]
      refine ⟨(inode.count_chunk _ offset hc).symm, ?_⟩
      rw [List.take_add]
      exact hw.append (hlen.symm ▸ hw')
    -- part of a sector, through the bounce buffer
    · rw [chunkSize_le_zero hsize, not_le] at hchunk
      refine (bounceBuffer_returns hmem bounce).seq fun allocated σ₁ h₁ => ?_
      obtain ⟨hsome, hsize₁, hstore₁, hmem₁⟩ := h₁
      have hkept₁ : σ.Kept σ₁ := ⟨hsize₁, hstore₁, fun _ => hmem₁⟩
      obtain ⟨b, rfl⟩ := Option.ne_none_iff_exists'.1 hsome
      have hdev₁ := hkept₁.onDevice hdev
      dsimp only
      set chunk := (chunkSize inode.length buffer.length offset).toNat with hc
      rw [chunkSize_toNat] at hc
      rw [byteToSector_eq hchunk,
        returns_bind_of_run (run_blockRead (hdev₁.sector_lt hchunk)),
        returns_bind_of_run (run_blockWrite (hdev₁.sector_lt hchunk))]
      have hlen : (buffer.take chunk).length = chunk := by
        rw [List.length_take]
        omega
      have hfit : inode.place offset % 512 + (buffer.take chunk).length ≤ 512 := by
        rw [place_mod, hlen]
        omega
      have hw := Overwrote.chunk (hdev₁.lt hchunk) hfit
      rw [place_mod] at hw
      refine (ih (buffer.length - chunk) (by omega) (List.length_drop ..) (hw.onDevice hdev₁)
        (hw.memory hmem₁)).seq fun rest σ₂ h₂ => ?_
      obtain ⟨rfl, hw'⟩ := h₂
      rw [List.length_drop] at hw' ⊢
      rw [place_add] at hw'
      rw [returns_pure]
      refine ⟨(inode.count_chunk _ offset hc).symm, ?_⟩
      rw [List.take_add]
      have hbounce : Overwrote (inode.place offset) [] σ σ₁ := .of_kept hkept₁
      have hfirst := hbounce.append hw
      exact hfirst.append (hlen.symm ▸ hw')
    -- a chunk that is not a whole sector leaves part of it as it was
    · refine absurd ?_ hpart
      unfold blockSectorSize at hfull ⊢
      rw [chunkSize_toNat] at hfull ⊢
      omega

/-- **`inode_write_at`** overwrites the bytes of the file that there are. -/
theorem inodeWriteAt_returns {inode : Inode} {σ : Device} (hdev : inode.OnDevice σ)
    (hmem : σ.Memory) (hdeny : inode.denyWriteCnt = 0) (buffer : List UInt8) (offset : ℕ) :
    Returns (inodeWriteAt inode buffer offset) σ fun n σ' =>
      n = inode.count buffer.length offset ∧
        Overwrote (inode.place offset) (buffer.take n) σ σ' := by
  unfold inodeWriteAt
  rw [if_neg (by rw [hdeny]; simp)]
  exact writeLoop_returns _ rfl hdev hmem

/-! ### Calls that continue -/

/-- Reads one after the other, each from where the last one stopped. -/
def readChunks (inode : Inode) : List ℕ → ℕ → Kernel (List UInt8)
  | [], _ => return []
  | size :: sizes, offset => do
    let bytes ← inodeReadAt inode size offset
    let rest ← readChunks inode sizes (offset + bytes.length)
    return bytes ++ rest

/-- Writes one after the other, each from where the last one stopped. -/
def writeChunks (inode : Inode) : List (List UInt8) → ℕ → Kernel ℕ
  | [], _ => return 0
  | buffer :: buffers, offset => do
    let n ← inodeWriteAt inode buffer offset
    let m ← writeChunks inode buffers (offset + n)
    return n + m

/-- Two calls move what one call for both sizes moves. -/
theorem Inode.count_add (inode : Inode) (m k offset : ℕ) :
    inode.count (m + k) offset =
      inode.count m offset + inode.count k (offset + inode.count m offset) := by
  unfold Inode.count
  omega

/-- **Reads that continue** read what one read of all the sizes reads. -/
theorem readChunks_returns {inode : Inode} (sizes : List ℕ) : ∀ {σ : Device} (offset : ℕ),
    inode.OnDevice σ → σ.Memory → Returns (readChunks inode sizes offset) σ fun bytes σ' =>
      bytes = run σ.bytes (inode.place offset) (inode.count sizes.sum offset) ∧ σ.Kept σ' := by
  induction sizes with
  | nil =>
    intro σ offset hdev hmem
    rw [readChunks, returns_pure, List.sum_nil, Inode.count, Nat.zero_min]
    exact ⟨rfl, .refl σ⟩
  | cons size sizes ih =>
    intro σ offset hdev hmem
    rw [readChunks]
    refine (inodeReadAt_returns hdev hmem size offset).seq fun bytes σ₁ h₁ => ?_
    obtain ⟨rfl, hkept₁⟩ := h₁
    rw [length_run]
    refine (ih _ (hkept₁.onDevice hdev) (hkept₁.memory hmem)).seq fun rest σ₂ h₂ => ?_
    obtain ⟨rfl, hkept₂⟩ := h₂
    rw [returns_pure, List.sum_cons, inode.count_add, run_add, place_add, hkept₁.bytes]
    exact ⟨rfl, hkept₁.trans hkept₂⟩

/-- **Writes that continue** write what one write of all the buffers writes. -/
theorem writeChunks_returns {inode : Inode} (hdeny : inode.denyWriteCnt = 0)
    (buffers : List (List UInt8)) : ∀ {σ : Device} (offset : ℕ), inode.OnDevice σ → σ.Memory →
    Returns (writeChunks inode buffers offset) σ fun n σ' =>
      n = inode.count buffers.flatten.length offset ∧
        Overwrote (inode.place offset) (buffers.flatten.take n) σ σ' := by
  induction buffers with
  | nil =>
    intro σ offset hdev hmem
    rw [writeChunks, returns_pure, List.flatten_nil, List.length_nil, Inode.count, Nat.zero_min]
    exact ⟨rfl, .of_kept (.refl σ)⟩
  | cons buffer buffers ih =>
    intro σ offset hdev hmem
    rw [writeChunks]
    refine (inodeWriteAt_returns hdev hmem hdeny buffer offset).seq fun n σ₁ h₁ => ?_
    obtain ⟨hn, hw₁⟩ := h₁
    refine (ih _ (hw₁.onDevice hdev) (hw₁.memory hmem)).seq fun m σ₂ h₂ => ?_
    obtain ⟨hm, hw₂⟩ := h₂
    rw [returns_pure, List.flatten_cons, List.length_append, inode.count_add, ← hn, ← hm]
    refine ⟨rfl, ?_⟩
    have hle : n ≤ buffer.length := hn ▸ Nat.min_le_left _ _
    have hlen : (buffer.take n).length = n := by
      rw [List.length_take]
      omega
    -- a short write is at the end of the file, where nothing follows it
    have htake : (buffer ++ buffers.flatten).take (n + m) =
        buffer.take n ++ buffers.flatten.take m := by
      rw [List.take_append]
      by_cases hshort : n = buffer.length
      · have hsub : n + m - buffer.length = m := by omega
        have hall : buffer.take (n + m) = buffer := List.take_of_length_le (by omega)
        have hfirst : buffer.take n = buffer := List.take_of_length_le (by omega)
        rw [hsub, hall, hfirst]
      · have hm0 : m = 0 := by
          unfold Inode.count at hn hm
          omega
        rw [hm0, Nat.add_zero, List.take_zero, List.append_nil]
        have hsub : n - buffer.length = 0 := by omega
        rw [hsub, List.take_zero, List.append_nil]
    rw [htake]
    rw [place_add] at hw₂
    exact hw₁.append (hlen.symm ▸ hw₂)

/-- **Files in consecutive sectors read and write like arrays of bytes.**  For every
inode on the device, with memory and writing not denied, `inode_read_at` delivers the
`min size (max 0 (length - offset))` bytes there are from `offset` on, and
`inode_write_at` replaces as many by those of the buffer and leaves every other byte of
every sector as it is.  Calls that continue where the last one stopped do what one call
for all of them does. -/
theorem contiguous_io {inode : Inode} {σ : Device} (hdev : inode.OnDevice σ) (hmem : σ.Memory)
    (hdeny : inode.denyWriteCnt = 0) :
    (∀ size offset, Returns (inodeReadAt inode size offset) σ fun bytes σ' =>
      bytes = run σ.bytes (inode.place offset) (inode.count size offset) ∧
        σ'.store = σ.store) ∧
    (∀ buffer offset, Returns (inodeWriteAt inode buffer offset) σ fun n σ' =>
      n = inode.count buffer.length offset ∧ ∀ s i, σ'.store s i =
        overwrite σ.bytes (inode.place offset) (buffer.take n) (512 * s.toNat + i.val)) ∧
    (∀ sizes offset, ∃ bytes σ₁ σ₂, (readChunks inode sizes offset).run σ = some (bytes, σ₁) ∧
      (inodeReadAt inode sizes.sum offset).run σ = some (bytes, σ₂) ∧
        σ₁.store = σ.store ∧ σ₂.store = σ.store) ∧
    ∀ buffers offset, ∃ n σ₁ σ₂, (writeChunks inode buffers offset).run σ = some (n, σ₁) ∧
      (inodeWriteAt inode buffers.flatten offset).run σ = some (n, σ₂) ∧
        σ₁.store = σ₂.store := by
  refine ⟨fun size offset => ?_, fun buffer offset => ?_, fun sizes offset => ?_,
    fun buffers offset => ?_⟩
  · exact (inodeReadAt_returns hdev hmem size offset).mono fun _ _ h => ⟨h.1, h.2.store⟩
  · exact (inodeWriteAt_returns hdev hmem hdeny buffer offset).mono fun _ _ h =>
      ⟨h.1, h.2.store⟩
  · obtain ⟨bytes, σ₁, hrun₁, rfl, hkept₁⟩ := readChunks_returns sizes offset hdev hmem
    obtain ⟨bytes, σ₂, hrun₂, rfl, hkept₂⟩ := inodeReadAt_returns hdev hmem sizes.sum offset
    exact ⟨_, σ₁, σ₂, hrun₁, hrun₂, hkept₁.store, hkept₂.store⟩
  · obtain ⟨n, σ₁, hrun₁, rfl, hw₁⟩ := writeChunks_returns hdeny buffers offset hdev hmem
    obtain ⟨n, σ₂, hrun₂, rfl, hw₂⟩ := inodeWriteAt_returns hdev hmem hdeny buffers.flatten offset
    refine ⟨_, σ₁, σ₂, hrun₁, hrun₂, ?_⟩
    funext s i
    rw [hw₁.store, hw₂.store]

/-- A file of `700` bytes in sectors `1` and `2` of a device of four sectors. -/
theorem contiguous_io_short : Returns (inodeReadAt ⟨1, 700, 0⟩ 600 200)
    ⟨4, fun _ _ => 7, fun _ => some Sector.zero⟩ fun bytes _ => bytes.length = 500 := by
  refine ((contiguous_io (by decide) (fun _ => by simp) rfl).1 600 200).mono fun bytes _ h => ?_
  rw [h.1, length_run]
  decide

end Pregame
end CS162

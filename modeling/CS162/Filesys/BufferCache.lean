/-
# The buffer cache

`projects1-3/src/filesys/inode.c`, lines 17-152, over `block_read` and
`block_write` of `projects1-3/src/devices/block.c`.

`CACHE_SIZE = 64` blocks stand between the file system and its device.  A block
is found by its sector number (`cacheSearch`); on a miss a victim is chosen
(`clockFindVictim`), written back if it is dirty, and refilled
(`getCachedBlock`, `evictAndReplace`).  This file is the code as one thread
runs it: every block's lock is taken when free and given back, so of the locks
only `buffer_cache->lock` is kept, which `flush_cache` never releases.

An access past the end of the device (`check_sector`), past the end of the
array of blocks or of a block's 512 bytes, and taking a lock the thread holds
already do not return.
-/

import Mathlib.Data.Fintype.Card
import CS162.Basis.Program
import CS162.Filesys.Sector

namespace CS162
namespace Filesys

open CS162.Basis

/-- `CACHE_SIZE`. -/
abbrev cacheSize : ℕ := 64

/-- `struct block`, the file system's device: its size in sectors and their bytes. -/
structure Device where
  size : ℕ
  sectors : BlockSector → Sector

/-- `struct cached_block`, without its lock. -/
structure CachedBlock where
  sector : BlockSector
  use : Bool
  dirty : Bool
  valid : Bool
  data : Sector

/-- `struct buffer_cache`: the blocks, the clock hand, and whether the running
thread holds `buffer_cache->lock`. -/
structure BufferCache where
  cachedBlocks : Fin cacheSize → CachedBlock
  clockHand : ℕ
  locked : Bool

/-- What the functions of the cache work on. -/
structure CacheState where
  device : Device
  cache : BufferCache

abbrev CacheProg := Prog CacheState

/-- Take or give back `buffer_cache->lock`. -/
def CacheState.setLocked (st : CacheState) (b : Bool) : CacheState :=
  { st with cache := { st.cache with locked := b } }

/-- Replace `cached_blocks[i]` by `f` of it. -/
def CacheState.update (st : CacheState) (i : Fin cacheSize) (f : CachedBlock → CachedBlock) :
    CacheState :=
  { st with cache := { st.cache with
      cachedBlocks := Function.update st.cache.cachedBlocks i (f (st.cache.cachedBlocks i)) } }

/-- The device's sector replaced. -/
def CacheState.writeDevice (st : CacheState) (sector : BlockSector) (buffer : Sector) :
    CacheState :=
  { st with device := { st.device with
      sectors := Function.update st.device.sectors sector buffer } }

/-- The labels a block gets on a miss, before it is refilled. -/
def CacheState.relabel (st : CacheState) (i : Fin cacheSize) (sector : BlockSector) : CacheState :=
  st.update i fun cb => { cb with sector := sector, valid := true, use := true, dirty := false }

/-- What `evict_and_replace` leaves: the block's old content written to its old
sector if `flush` says so, then the block filled from the device. -/
def CacheState.evict (st : CacheState) (i : Fin cacheSize) (oldSector : BlockSector)
    (flush : Bool) : CacheState :=
  let st := if flush = true then st.writeDevice oldSector (st.cache.cachedBlocks i).data else st
  st.update i fun cb => { cb with data := st.device.sectors cb.sector }

/-- `block_read`: the sector's bytes; `check_sector` panics past the end. -/
def blockRead (sector : BlockSector) : CacheProg Sector := do
  let st ← get
  if sector.toNat < st.device.size then
    return st.device.sectors sector
  else halt

/-- `block_write`; `check_sector` panics past the end. -/
def blockWrite (sector : BlockSector) (buffer : Sector) : CacheProg Unit := do
  let st ← get
  if sector.toNat < st.device.size then
    set (st.writeDevice sector buffer)
  else halt

/-- `lock_acquire (&buffer_cache->lock)`; its assertion fails when the thread
holds the lock. -/
def acquireCacheLock : CacheProg Unit := do
  let st ← get
  if st.cache.locked = true then halt
  else set (st.setLocked true)

/-- `lock_release (&buffer_cache->lock)`. -/
def releaseCacheLock : CacheProg Unit :=
  modify fun st => st.setLocked false

/-- The blocks with their `use` bit set. -/
def CacheState.usedBlocks (st : CacheState) : Finset (Fin cacheSize) :=
  Finset.univ.filter fun i => (st.cache.cachedBlocks i).use = true

theorem CacheState.mem_usedBlocks (st : CacheState) (i : Fin cacheSize) :
    i ∈ st.usedBlocks ↔ (st.cache.cachedBlocks i).use = true := by
  rw [usedBlocks, Finset.mem_filter_univ]

/-- Clearing a `use` bit leaves one block fewer in use. -/
theorem CacheState.card_usedBlocks_lt (st : CacheState) {i : Fin cacheSize}
    (h : ¬(st.cache.cachedBlocks i).use = false) :
    (st.update i fun cb => { cb with use := false }).usedBlocks.card < st.usedBlocks.card := by
  refine Finset.card_lt_card ((Finset.ssubset_iff_of_subset fun j hj => ?_).2 ⟨i, ?_, ?_⟩)
  · rw [mem_usedBlocks] at hj ⊢
    by_cases hji : j = i
    · subst hji
      simpa using h
    · simpa [CacheState.update, hji] using hj
  · rw [mem_usedBlocks]
    simpa using h
  · rw [mem_usedBlocks]
    simp [CacheState.update]

/-- The `while (true)` of `clock_find_victim`.  The hand is advanced by
`(clock_hand + 1) & CACHE_SIZE`, as the source has it.  Every turn but the last
clears a `use` bit. -/
def clockSweep (st : CacheState) : Option (Fin cacheSize × CacheState) :=
  let hand := (st.cache.clockHand + 1) &&& cacheSize
  let st' := { st with cache := { st.cache with clockHand := hand } }
  if h : hand < cacheSize then
    if _hu : (st'.cache.cachedBlocks ⟨hand, h⟩).use = false then some (⟨hand, h⟩, st')
    else clockSweep (st'.update ⟨hand, h⟩ fun cb => { cb with use := false })
  else none
termination_by st.usedBlocks.card
decreasing_by exact CacheState.card_usedBlocks_lt st' _hu

/-- `clock_find_victim`: the first block not in use yet, else the clock's choice. -/
def clockFindVictim : CacheProg (Fin cacheSize) := do
  let st ← get
  match (List.finRange cacheSize).find? fun i => !(st.cache.cachedBlocks i).valid with
  | some i => return i
  | none => clockSweep

/-- `evict_and_replace`. -/
def evictAndReplace (i : Fin cacheSize) (oldSector : BlockSector) (flush : Bool) :
    CacheProg Unit := do
  let st ← get
  if flush = true then
    blockWrite oldSector (st.cache.cachedBlocks i).data
  let data ← blockRead (st.cache.cachedBlocks i).sector
  modify fun st => st.update i fun cb => { cb with data := data }

/-- `cache_search`: the first valid block of this sector. -/
def cacheSearch (cache : BufferCache) (sector : BlockSector) : Option (Fin cacheSize) :=
  (List.finRange cacheSize).find? fun i =>
    (cache.cachedBlocks i).sector == sector && (cache.cachedBlocks i).valid

/-- `get_cached_block`. -/
def getCachedBlock (sector : BlockSector) : CacheProg (Fin cacheSize) := do
  acquireCacheLock
  let st ← get
  match cacheSearch st.cache sector with
  | some i =>
    releaseCacheLock
    return i
  | none =>
    let i ← clockFindVictim
    let st ← get
    let oldSec := (st.cache.cachedBlocks i).sector
    let flush := (st.cache.cachedBlocks i).dirty && (st.cache.cachedBlocks i).valid
    modify fun st => st.relabel i sector
    releaseCacheLock
    evictAndReplace i oldSec flush
    return i

/-- `cache_read`, started at most `tries` times.  The source copies from `buff`
into the block, `memcpy (cb->data + offset, buff, chunk_size)`; what `buff` holds
afterwards is returned. -/
def cacheRead : ℕ → BlockSector → List UInt8 → ℕ → CacheProg (List UInt8)
  | 0, _, _, _ => halt
  | tries + 1, sec, buff, offset => do
    let i ← getCachedBlock sec
    let st ← get
    if (st.cache.cachedBlocks i).sector = sec then
      if offset + buff.length ≤ blockSectorSize then
        modify fun st => st.update i fun cb => { cb with data := copyInto cb.data offset buff }
        return buff
      else halt
    else cacheRead tries sec buff offset

/-- `cache_write`, started at most `tries` times. -/
def cacheWrite : ℕ → BlockSector → List UInt8 → ℕ → CacheProg Unit
  | 0, _, _, _ => halt
  | tries + 1, sec, buff, offset => do
    let i ← getCachedBlock sec
    let st ← get
    if (st.cache.cachedBlocks i).sector = sec then
      if offset + buff.length ≤ blockSectorSize then
        modify fun st => st.update i fun cb =>
          { cb with data := copyInto cb.data offset buff, dirty := true }
      else halt
    else cacheWrite tries sec buff offset

/-- One turn of `flush_cache`'s loop. -/
def flushBlock (i : Fin cacheSize) : CacheProg Unit := do
  let st ← get
  let cb := st.cache.cachedBlocks i
  if (cb.dirty && cb.valid) = true then
    blockWrite cb.sector cb.data
    modify fun st => st.update i fun cb => { cb with dirty := false }

/-- The loop of `flush_cache` over the blocks still to come. -/
def flushBlocks : List (Fin cacheSize) → CacheProg Unit
  | [] => return ()
  | i :: is => do
    flushBlock i
    flushBlocks is

/-- `flush_cache`.  The lock is taken and not given back. -/
def flushCache : CacheProg Unit := do
  acquireCacheLock
  flushBlocks (List.finRange cacheSize)

/-- `buffer_cache_init` on a device; the blocks' sector numbers are what
`malloc` returned. -/
def bufferCacheInit (device : Device) (junk : Fin cacheSize → BlockSector) : CacheState where
  device := device
  cache :=
    { cachedBlocks := fun i =>
        { sector := junk i, use := false, dirty := false, valid := false, data := Sector.zero }
      clockHand := 0
      locked := false }

/-- The current content of a sector: its valid block's bytes if there is one,
else the device's. -/
def CacheState.content (st : CacheState) (sector : BlockSector) : Sector :=
  match cacheSearch st.cache sector with
  | some i => (st.cache.cachedBlocks i).data
  | none => st.device.sectors sector

end Filesys
end CS162

/-
# The buffer cache under several threads

`projects1-3/src/filesys/inode.c`, lines 32-152: `cache_write` and `flush_cache`
as the steps between their lock operations.

A thread's program point says which lock operation or which statements come
next; the statements between two lock operations, `block_read` and `block_write`
included, are one step.  `code` is the source line by line: `cache_search` takes
and gives back every block's lock in turn, `clock_find_victim` reads `valid` and
`use` without a lock and clears `use` under the block's, `get_cached_block` reads
the victim's `sector`, `dirty` and `valid` before it takes the victim's lock and
gives `buffer_cache->lock` back before `evict_and_replace`, and `cache_write`
looks at the sector again once it holds the block.

Three history variables stand beside the cache: the log of the `memcpy`s of
`cache_write` in the order they happen, which of them have returned, and for
each block the eviction under way on it.
-/

import CS162.Basis.Threads
import CS162.Filesys.BufferCacheRuns

namespace CS162
namespace Filesys

open CS162.Basis

/-- The locks of the cache: `buffer_cache->lock` and each block's. -/
inductive LockId where
  | cache
  | block (i : Fin cacheSize)
  deriving DecidableEq

/-- What the threads share.  Who holds which lock is not part of it. -/
structure SharedCache where
  st : CacheState
  /-- The writes whose `memcpy` has happened, in order. -/
  log : List WriteCall
  /-- The positions in `log` of the calls that have returned. -/
  returned : List ℕ
  /-- The old sector and the flush decision of a block relabelled but not refilled. -/
  recycling : Fin cacheSize → Option (BlockSector × Bool)

/-- Where a thread is: `acq…` and `rel…` stand before a lock operation, the
others before statements. -/
inductive Pc where
  | idle
  | acqCache (w : WriteCall)
  | acqSearch (w : WriteCall) (i : Fin cacheSize)
  | compare (w : WriteCall) (i : Fin cacheSize)
  | relSearch (w : WriteCall) (i : Fin cacheSize) (found : Bool)
  | relHit (w : WriteCall) (i : Fin cacheSize)
  | findVictim (w : WriteCall)
  | acqUse (w : WriteCall) (i : Fin cacheSize)
  | clearUse (w : WriteCall) (i : Fin cacheSize)
  | relUse (w : WriteCall) (i : Fin cacheSize)
  | sweep (w : WriteCall)
  | acqVictim (w : WriteCall) (i : Fin cacheSize) (old : BlockSector) (flush : Bool)
  | relabel (w : WriteCall) (i : Fin cacheSize) (old : BlockSector) (flush : Bool)
  | relMiss (w : WriteCall) (i : Fin cacheSize) (old : BlockSector) (flush : Bool)
  | evict (w : WriteCall) (i : Fin cacheSize) (old : BlockSector) (flush : Bool)
  | relEvict (w : WriteCall) (i : Fin cacheSize)
  | acqBlock (w : WriteCall) (i : Fin cacheSize)
  | store (w : WriteCall) (i : Fin cacheSize)
  | relRetry (w : WriteCall) (i : Fin cacheSize)
  | relDone (n : ℕ) (i : Fin cacheSize)
  | done (n : ℕ)
  | acqFlush
  | flush
  | flushed

namespace Pc

/-- The locks held at a program point. -/
def locks : Pc → List LockId
  | acqSearch _ _ | relHit _ _ | findVictim _ | acqUse _ _ | sweep _ | acqVictim _ _ _ _
  | flush | flushed => [.cache]
  | compare _ i | relSearch _ i _ | clearUse _ i | relUse _ i | relabel _ i _ _
  | relMiss _ i _ _ => [.cache, .block i]
  | evict _ i _ _ | relEvict _ i | store _ i | relRetry _ i | relDone _ i => [.block i]
  | idle | acqCache _ | acqBlock _ _ | done _ | acqFlush => []

end Pc

namespace SharedCache

/-- Block `i` as a line of a write-back cache. -/
def line (s : SharedCache) (i : Fin cacheSize) : Line BlockSector Sector := s.st.lines i

/-- The program point of a thread whose victim is block `i`: the victim's labels
have been read, its lock has not been taken. -/
def chosen (s : SharedCache) (w : WriteCall) (i : Fin cacheSize) : Pc :=
  .acqVictim w i (s.line i).key (s.line i).mustFlush

/-- `clock_find_victim`'s `while (true)` from its head to its next lock
operation; `none` when the hand leaves the array of blocks. -/
def sweepStep (s : SharedCache) (w : WriteCall) : Option (SharedCache × Pc) :=
  let hand := (s.st.cache.clockHand + 1) &&& cacheSize
  if h : hand < cacheSize then
    let s' := { s with st := { s.st with cache := { s.st.cache with clockHand := hand } } }
    if (s.st.cache.cachedBlocks ⟨hand, h⟩).use = false then some (s', s'.chosen w ⟨hand, h⟩)
    else some (s', .acqUse w ⟨hand, h⟩)
  else none

/-- `clock_find_victim` from its beginning to its next lock operation. -/
def findVictimStep (s : SharedCache) (w : WriteCall) : Option (SharedCache × Pc) :=
  match (List.finRange cacheSize).find? fun i => !(s.st.cache.cachedBlocks i).valid with
  | some i => some (s, s.chosen w i)
  | none => s.sweepStep w

/-- One turn of `flush_cache`'s loop. -/
def flushOne (st : CacheState) (i : Fin cacheSize) : CacheState :=
  if (st.lines i).mustFlush = true then
    (st.writeDevice (st.lines i).key (st.lines i).data).update i fun cb => { cb with dirty := false }
  else st

/-- The loop of `flush_cache`. -/
@[irreducible] def flushAll (st : CacheState) : CacheState :=
  (List.finRange cacheSize).foldl flushOne st

/-- The current content of a sector: its valid block's bytes if there is one,
else the device's. -/
def content (s : SharedCache) : BlockSector → Sector := s.st.content

end SharedCache

open SharedCache in
/-- The actions of a thread that calls `cache_write` and `flush_cache`. -/
inductive CacheCode : Pc → SharedCache → Act LockId Pc SharedCache → Prop where
  /-- A call `cache_write (w)` begins. -/
  | call {s} (w : WriteCall) : w.Ok s.st.device → CacheCode .idle s (.run s (.acqCache w))
  /-- `lock_acquire (&buffer_cache->lock)`. -/
  | acqCache {s w} : CacheCode (.acqCache w) s (.acquire .cache (.acqSearch w 0))
  /-- `cache_search`: `lock_acquire (&cb->lock)`. -/
  | acqSearch {s w i} : CacheCode (.acqSearch w i) s (.acquire (.block i) (.compare w i))
  /-- `cb->sector == sector && cb->valid == 1`. -/
  | compare {s w i} : CacheCode (.compare w i) s (.run s (.relSearch w i
      ((s.line i).key == w.sec && (s.line i).valid)))
  /-- `lock_release (&cb->lock)` and `return cb`. -/
  | relFound {s w i} : CacheCode (.relSearch w i true) s (.release (.block i) (.relHit w i))
  /-- `lock_release (&cb->lock)` and the next block. -/
  | relNext {s w} {i j : Fin cacheSize} : j.val = i.val + 1 →
      CacheCode (.relSearch w i false) s (.release (.block i) (.acqSearch w j))
  /-- `lock_release (&cb->lock)` of the last block, `return NULL`. -/
  | relLast {s w} {i : Fin cacheSize} : i.val + 1 = cacheSize →
      CacheCode (.relSearch w i false) s (.release (.block i) (.findVictim w))
  /-- `lock_release (&buffer_cache->lock)` of a hit. -/
  | relHit {s w i} : CacheCode (.relHit w i) s (.release .cache (.acqBlock w i))
  /-- `clock_find_victim` to its next lock operation, and the reads of the victim's
  `sector`, `dirty` and `valid` if it returns. -/
  | findVictim {s s' w q} : s.findVictimStep w = some (s', q) →
      CacheCode (.findVictim w) s (.run s' q)
  | sweep {s s' w q} : s.sweepStep w = some (s', q) → CacheCode (.sweep w) s (.run s' q)
  /-- `lock_acquire (&cb->lock); cb->use = 0; lock_release (&cb->lock)`. -/
  | acqUse {s w i} : CacheCode (.acqUse w i) s (.acquire (.block i) (.clearUse w i))
  | clearUse {s w i} : CacheCode (.clearUse w i) s (.run
      { s with st := s.st.update i fun cb => { cb with use := false } } (.relUse w i))
  | relUse {s w i} : CacheCode (.relUse w i) s (.release (.block i) (.sweep w))
  /-- `get_cached_block`: `lock_acquire (&cb->lock)` of the victim. -/
  | acqVictim {s w i old flush} : CacheCode (.acqVictim w i old flush) s
      (.acquire (.block i) (.relabel w i old flush))
  | relabel {s w i old flush} : CacheCode (.relabel w i old flush) s (.run
      { s with
        st := s.st.relabel i w.sec
        recycling := Function.update s.recycling i (some (old, flush)) } (.relMiss w i old flush))
  /-- `lock_release (&buffer_cache->lock)` of a miss. -/
  | relMiss {s w i old flush} : CacheCode (.relMiss w i old flush) s
      (.release .cache (.evict w i old flush))
  /-- `evict_and_replace`. -/
  | evict {s w i old flush} : CacheCode (.evict w i old flush) s (.run
      { s with
        st := s.st.evict i old flush
        recycling := Function.update s.recycling i none } (.relEvict w i))
  | relEvict {s w i} : CacheCode (.relEvict w i) s (.release (.block i) (.acqBlock w i))
  /-- `cache_write`: `lock_acquire (&cb->lock)`. -/
  | acqBlock {s w i} : CacheCode (.acqBlock w i) s (.acquire (.block i) (.store w i))
  /-- `cb->sector == sec`: `memcpy (cb->data + offset, buff, chunk_size); cb->dirty = 1`. -/
  | store {s w i} : (s.line i).key = w.sec → CacheCode (.store w i) s (.run
      { s with
        st := s.st.update i fun cb =>
          { cb with data := copyInto cb.data w.offset w.buff, dirty := true }
        log := s.log ++ [w] } (.relDone s.log.length i))
  /-- `cb->sector != sec`: give the block back and start again. -/
  | retry {s w i} : (s.line i).key ≠ w.sec → CacheCode (.store w i) s (.run s (.relRetry w i))
  | relRetry {s w i} : CacheCode (.relRetry w i) s (.release (.block i) (.acqCache w))
  | relDone {s n i} : CacheCode (.relDone n i) s (.release (.block i) (.done n))
  /-- `return`. -/
  | done {s n} : CacheCode (.done n) s (.run { s with returned := n :: s.returned } .idle)
  /-- A call `flush_cache ()` begins. -/
  | callFlush {s} : CacheCode .idle s (.run s .acqFlush)
  | acqFlush {s} : CacheCode .acqFlush s (.acquire .cache .flush)
  /-- The loop of `flush_cache`; `buffer_cache->lock` stays taken. -/
  | flush {s} : CacheCode .flush s (.run { s with st := flushAll s.st } .flushed)

/-- `buffer_cache_init` on a device, before any thread has called the cache. -/
def threadsInit (T : Type) (device : Device) (junk : Fin cacheSize → BlockSector) :
    Config T LockId Pc SharedCache where
  pc := fun _ => .idle
  owner := fun _ => none
  shared :=
    { st := bufferCacheInit device junk
      log := []
      returned := []
      recycling := fun _ => none }

/-- The program point after choosing a victim holds `buffer_cache->lock` alone. -/
theorem locks_sweepStep {s s' : SharedCache} {w : WriteCall} {q : Pc}
    (h : s.sweepStep w = some (s', q)) : q.locks = [.cache] := by
  unfold SharedCache.sweepStep at h
  simp only at h
  split_ifs at h
  · obtain ⟨-, rfl⟩ := Prod.mk.inj (Option.some.inj h)
    rfl
  · obtain ⟨-, rfl⟩ := Prod.mk.inj (Option.some.inj h)
    rfl

theorem locks_findVictimStep {s s' : SharedCache} {w : WriteCall} {q : Pc}
    (h : s.findVictimStep w = some (s', q)) : q.locks = [.cache] := by
  unfold SharedCache.findVictimStep at h
  split at h
  · obtain ⟨-, rfl⟩ := Prod.mk.inj (Option.some.inj h)
    rfl
  · exact locks_sweepStep h

/-- The locks held are those the program points say. -/
theorem cacheDiscipline : Discipline CacheCode fun p l => l ∈ p.locks where
  acquire p s l q h l' := by cases h <;> simp [Pc.locks, or_comm]
  release p s l q h := by
    cases h
    all_goals
      refine ⟨by simp [Pc.locks], fun l' => ?_⟩
      simp only [Pc.locks, List.mem_cons, List.not_mem_nil, or_false, ne_eq]
    all_goals
      cases l' <;> simp
  run p s s' q h l := by
    cases h with
    | findVictim h => rw [locks_findVictimStep h]; rfl
    | sweep h => rw [locks_sweepStep h]; rfl
    | _ => simp [Pc.locks]

end Filesys
end CS162

/-
# The kernel's malloc

`projects1-3/src/threads/malloc.c`, lines 34-142 and 196-257: `malloc_init`, `malloc`, `free`,
`block_to_arena` and `arena_to_block`, with their assertions, on the kernel's memory.

The offsets are those of a 32-bit machine: an arena is its magic number, its descriptor and its
`free_cnt`; a descriptor is `block_size`, `blocks_per_arena`, `free_list` and a lock.  The locks
are left out, as calls are taken one after the other.
-/

import CS162.Lib.LinkedList
import CS162.Threads.Palloc

namespace CS162
namespace Threads

open CS162.Basis CS162.Lib

/-- `ARENA_MAGIC`. -/
def arenaMagic : ℕ := 0x9a548eed

/-- `sizeof (struct arena)`. -/
def sizeofArena : ℕ := 12

/-- `&d->free_list`. -/
def freeList (d : ℕ) : ℕ := d + 8

/-- `block_to_arena`. -/
def blockToArena (b : ℕ) : OnHeap ℕ := do
  let a := pgRoundDown b
  if a = 0 then halt else do
  let magic ← onMem (readField a 0)
  if magic ≠ arenaMagic then halt else do
  let d ← onMem (readField a 4)
  if d = 0 then
    if pgOfs b = sizeofArena then return a else halt
  else do
    let size ← onMem (readField d 0)
    -- a remainder by 0 is a fault
    if size ≠ 0 ∧ (pgOfs b + 2 ^ 32 - sizeofArena) % 2 ^ 32 % size = 0 then return a else halt

/-- `arena_to_block`. -/
def arenaToBlock (a idx : ℕ) : OnHeap ℕ :=
  if a = 0 then halt else do
  let magic ← onMem (readField a 0)
  if magic ≠ arenaMagic then halt else do
  let d ← onMem (readField a 4)
  let n ← onMem (readField d 4)
  if idx < n then do
    let size ← onMem (readField d 0)
    return (a + sizeofArena + idx * size) % 2 ^ 32
  else halt

section Malloc

variable (L : Layout)

/-- The loop of `malloc_init`, which ends when `block_size` is half a page. -/
def mallocInitLoop : ℕ → ℕ → OnHeap Unit
  | 0, _ => halt
  | turns + 1, blockSize =>
    if blockSize < pgsize / 2 then do
      let H ← get
      let d := L.descs + sizeofDesc * H.descCnt
      modify fun H => { H with descCnt := H.descCnt + 1 }
      if 10 < H.descCnt + 1 then halt else do
      onMem (writeField d 0 blockSize)
      onMem (writeField d 4 ((pgsize - sizeofArena) / blockSize))
      onMem (listInit (freeList d))
      mallocInitLoop turns (blockSize * 2)
    else return

/-- `malloc_init`. -/
def mallocInit : OnHeap Unit := mallocInitLoop L pgsize 16

/-- The smallest descriptor for a size among `n`, from `d` on; the one behind them if there is
none. -/
def findDesc (size : ℕ) : ℕ → ℕ → OnHeap ℕ
  | 0, d => return d
  | n + 1, d => do
    let blockSize ← onMem (readField d 0)
    if size ≤ blockSize then return d else findDesc size n (d + sizeofDesc)

/-- The blocks of a new arena, from the index `i` on, go on the free list. -/
def pushBlocks (d a : ℕ) : ℕ → ℕ → OnHeap Unit
  | 0, _ => return
  | n + 1, i => do
    let b ← arenaToBlock a i
    onMem (listPushBack (freeList d) b)
    pushBlocks d a n (i + 1)

/-- A new arena and its blocks. -/
def initArena (d a : ℕ) : OnHeap Unit := do
  onMem (writeField a 0 arenaMagic)
  onMem (writeField a 4 d)
  let n ← onMem (readField d 4)
  onMem (writeField a 8 n)
  pushBlocks d a n 0

/-- A block from the free list. -/
def takeBlock (d : ℕ) : OnHeap ℕ := do
  let b ← onMem (listPopFront (freeList d))
  let a ← blockToArena b
  let cnt ← onMem (readField a 8)
  onMem (writeField a 8 ((cnt + 2 ^ 32 - 1) % 2 ^ 32))
  return b

/-- `malloc`. -/
def malloc (size : ℕ) : OnHeap ℕ :=
  if size = 0 then return 0 else do
  let H ← get
  let d ← findDesc size H.descCnt L.descs
  if d = L.descs + sizeofDesc * H.descCnt then do
    -- pages of its own
    let pageCnt := ((size + sizeofArena) % 2 ^ 32 + (pgsize - 1)) % 2 ^ 32 / pgsize
    let a ← pallocGetMultiple L {} pageCnt
    if a = 0 then return 0 else do
    onMem (writeField a 0 arenaMagic)
    onMem (writeField a 4 0)
    onMem (writeField a 8 pageCnt)
    return a + sizeofArena
  else do
    let empty ← onMem (listEmpty (freeList d))
    if empty = true then do
      let a ← pallocGetPage L {}
      if a = 0 then return 0 else do
      initArena d a
      takeBlock d
    else takeBlock d

/-- The blocks of an arena, from the index `i` on, leave the free list. -/
def removeBlocks (a : ℕ) : ℕ → ℕ → OnHeap Unit
  | 0, _ => return
  | n + 1, i => do
    let b ← arenaToBlock a i
    let _ ← onMem (listRemove b)
    removeBlocks a n (i + 1)

/-- An arena whose last block has been freed goes back to `palloc`. -/
def freeArena (a cnt n : ℕ) : OnHeap Unit :=
  if cnt ≠ n then halt else do
  removeBlocks a n 0
  pallocFreePage L a

/-- `free`. -/
def free (p : ℕ) : OnHeap Unit :=
  if p = 0 then return else do
  let a ← blockToArena p
  let d ← onMem (readField a 4)
  if d = 0 then do
    let pages ← onMem (readField a 8)
    pallocFreeMultiple L a pages
  else do
    let size ← onMem (readField d 0)
    memset p 0xcc size
    onMem (listPushFront (freeList d) p)
    let cnt ← onMem (readField a 8)
    let cnt := (cnt + 1) % 2 ^ 32
    onMem (writeField a 8 cnt)
    let n ← onMem (readField d 4)
    if n ≤ cnt then freeArena L a cnt n else return

end Malloc

end Threads
end CS162

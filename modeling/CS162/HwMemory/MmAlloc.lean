/-
# The user heap allocator

`hw-memory/mm_alloc/mm_alloc.c`: `mm_malloc`, `mm_realloc` and `mm_free`, for machines of
64 bits, on which `data` begins at byte 28 of a `struct block` and the struct has 32.

A load or a store outside the memory that `sbrk` has given does not return.  `sbrk` takes
the next bytes below `limit`, or fails; `grants` answers its calls to come.  A loop over
the list of blocks gets a turn for each byte of the heap, more than there are blocks.
-/

import CS162.Basis.ByteMemory
import CS162.Basis.Program

namespace CS162
namespace HwMemory

open CS162.Basis

/-- The heap. -/
structure MmHeap where
  mem : Memory
  /-- The break at the start, and now. -/
  base : ℕ
  brk : ℕ
  limit : ℕ
  grants : ℕ → Bool
  listHead : ℕ

abbrev OnMmHeap := Prog MmHeap

/-- The bytes are in the heap. -/
def MmHeap.Inside (S : MmHeap) (a n : ℕ) : Prop := S.base ≤ a ∧ a + n ≤ S.brk

instance (S : MmHeap) (a n : ℕ) : Decidable (S.Inside a n) :=
  inferInstanceAs (Decidable (_ ∧ _))

/-- A load of a number of `n` bytes. -/
def load (a n : ℕ) : OnMmHeap ℕ := do
  let S ← get
  if S.Inside a n then return numberAt S.mem a n else halt

/-- A store. -/
def storeBytes (a : ℕ) (bytes : List UInt8) : OnMmHeap Unit := do
  let S ← get
  if S.Inside a bytes.length then set { S with mem := store S.mem a bytes } else halt

/-- `memset` with 0. -/
def memset (a n : ℕ) : OnMmHeap Unit := storeBytes a (List.replicate n 0)

/-- `memcpy`. -/
def memcpy (dst src n : ℕ) : OnMmHeap Unit := do
  let S ← get
  if S.Inside src n then storeBytes dst ((List.range n).map fun i => S.mem (src + i)) else halt

/-- `sbrk`; `none` is `(void*)-1`. -/
def sbrk (n : ℕ) : OnMmHeap (Option ℕ) := do
  let S ← get
  if S.grants 0 ∧ S.brk + n ≤ S.limit then
    set { S with grants := fun k => S.grants (k + 1), brk := S.brk + n }
    return some S.brk
  else
    set { S with grants := fun k => S.grants (k + 1) }
    return none

/-! ### `struct block` -/

/-- `offsetof (block_m, data)`. -/
def dataOffset : ℕ := 28

/-- `sizeof (block_m)`. -/
def headerSize : ℕ := 32

def getSize (b : ℕ) : OnMmHeap ℕ := load b 8
def getNext (b : ℕ) : OnMmHeap ℕ := load (b + 8) 8
def getFree (b : ℕ) : OnMmHeap ℕ := load (b + 24) 4
def setSize (b size : ℕ) : OnMmHeap Unit := storeBytes b (bytesOf 8 size)
def setNext (b next : ℕ) : OnMmHeap Unit := storeBytes (b + 8) (bytesOf 8 next)
def setFree (b free : ℕ) : OnMmHeap Unit := storeBytes (b + 24) (bytesOf 4 free)

/-- `size + sizeof (block_m)`, a `size_t`. -/
def plusHeader (size : ℕ) : ℕ := (size + headerSize) % 2 ^ 64

/-- A turn for each byte of the heap. -/
def turnsOf : OnMmHeap ℕ := do
  let S ← get
  return S.brk + 1

/-! ### `mm_malloc` -/

/-- `current_block->free && current_block->size >= size`. -/
def fitsAt (size current : ℕ) : OnMmHeap Bool := do
  let free ← getFree current
  if free = 0 then return false
  else
    let currentSize ← getSize current
    return size ≤ currentSize

/-- The loop of `mm_malloc` over the list, with the new block at hand. -/
def mallocLoop (size new : ℕ) : ℕ → ℕ → ℕ → OnMmHeap (Option ℕ)
  | 0, _, _ => halt
  | turns + 1, current, prev => do
    if current = 0 then
      setNext prev new
      setNext new 0
      setFree new 0
      return some (new + dataOffset)
    else
      let fits ← fitsAt size current
      if fits then
        let currentSize ← getSize current
        if currentSize ≤ plusHeader size then
          setFree current 0
          return some (current + dataOffset)
        else
          let split := current + size
          setSize split ((currentSize - size + 2 ^ 64 - headerSize) % 2 ^ 64)
          setFree split 1
          let next ← getNext current
          setNext split next
          setSize current size
          setNext current split
          setFree current 0
          return some (current + dataOffset)
      else
        let next ← getNext current
        mallocLoop size new turns next current

/-- `mm_malloc`. -/
def mmMalloc (size : ℕ) : OnMmHeap (Option ℕ) := do
  if size = 0 then return none
  else
    let chunk ← sbrk (plusHeader size)
    match chunk with
    | none => return none
    | some new =>
      memset new (plusHeader size)
      setSize new size
      setFree new 1
      let S ← get
      if S.listHead = 0 then
        set { S with listHead := new }
        setFree new 0
        return some (new + dataOffset)
      else
        let turns ← turnsOf
        mallocLoop size new turns S.listHead 0

/-! ### `mm_free` -/

/-- A block takes the next one in. -/
def absorb (current next : ℕ) : OnMmHeap Unit := do
  let size ← getSize current
  let nextSize ← getSize next
  setSize current ((size + nextSize) % 2 ^ 64)
  let after ← getNext next
  setNext current after

/-- The first loop of `mm_free`. -/
def absorbLoop (current : ℕ) : ℕ → OnMmHeap Unit
  | 0 => halt
  | turns + 1 => do
    let next ← getNext current
    if next = 0 then return ()
    else
      let free ← getFree next
      if free = 0 then return ()
      else
        absorb current next
        absorbLoop current turns

/-- The second loop of `mm_free`. -/
def mergeLoop : ℕ → ℕ → OnMmHeap Unit
  | 0, _ => halt
  | turns + 1, current => do
    if current = 0 then return ()
    else
      let free ← getFree current
      let next ← getNext current
      if free ≠ 0 ∧ next ≠ 0 then
        let nextFree ← getFree next
        if nextFree ≠ 0 then absorb current next
      let next ← getNext current
      mergeLoop turns next

/-- The third loop of `mm_free`. -/
def clearLoop : ℕ → ℕ → OnMmHeap Unit
  | 0, _ => halt
  | turns + 1, current => do
    if current = 0 then return ()
    else
      let free ← getFree current
      if free ≠ 0 then
        let size ← getSize current
        memset (current + dataOffset) size
      let next ← getNext current
      clearLoop turns next

/-- `mm_free`. -/
def mmFree (ptr : ℕ) : OnMmHeap Unit := do
  if ptr = 0 then return ()
  else
    let current := ptr - dataOffset
    setFree current 1
    let size ← getSize current
    memset (current + dataOffset) size
    let turns ← turnsOf
    absorbLoop current turns
    let S ← get
    mergeLoop turns S.listHead
    clearLoop turns S.listHead

/-! ### `mm_realloc` -/

/-- `mm_realloc`. -/
def mmRealloc (ptr size : ℕ) : OnMmHeap (Option ℕ) := do
  if ptr = 0 then mmMalloc size
  else if size = 0 then
    mmFree ptr
    return none
  else
    let current := ptr - dataOffset
    let currentSize ← getSize current
    if size ≤ currentSize then return some ptr
    else
      let fresh ← mmMalloc size
      match fresh with
      | none => return none
      | some newPtr =>
        let currentSize ← getSize current
        memcpy newPtr ptr currentSize
        mmFree ptr
        return some newPtr

end HwMemory
end CS162

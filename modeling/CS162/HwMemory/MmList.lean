/-
# The list of blocks, layout aside

`hw-memory/mm_alloc/mm_alloc.c` with a `sbrk` that succeeds and blocks that have no place in memory:
a pointer stands for a block with its data, 0 is NULL, and `sbrk` and the split of a block give the
next pointer.  What a block has is its `size`, its `free` and its `next`; nothing reads or writes
`prev`.  `memset` and `memcpy` of data are left out.

Through a pointer that no block has, nothing returns.  A loop over the list gets a turn for each
pointer there is.
-/

import CS162.Basis.Program

namespace CS162
namespace HwMemory
namespace MmList

open CS162.Basis

/-- A `block_m`. -/
structure BlockM where
  size : UInt64
  next : ℕ
  free : Bool

/-- The blocks behind the pointers `1, …, made`, and `list_head`. -/
structure Heap where
  block : ℕ → BlockM
  made : ℕ
  listHead : ℕ

abbrev OnHeap := Prog Heap

/-- A block has the pointer. -/
def Heap.Has (S : Heap) (p : ℕ) : Prop := 0 < p ∧ p ≤ S.made

instance (S : Heap) (p : ℕ) : Decidable (S.Has p) := inferInstanceAs (Decidable (_ ∧ _))

/-- The heap with a block changed. -/
def Heap.put (S : Heap) (p : ℕ) (b : BlockM) : Heap :=
  { S with block := fun q => if q = p then b else S.block q }

def getBlock (p : ℕ) : OnHeap BlockM := do
  let S ← get
  if S.Has p then return S.block p else halt

def setBlock (p : ℕ) (change : BlockM → BlockM) : OnHeap Unit := do
  let S ← get
  if S.Has p then set (S.put p (change (S.block p))) else halt

def setSize (p : ℕ) (size : UInt64) : OnHeap Unit := setBlock p fun b => { b with size := size }
def setNext (p next : ℕ) : OnHeap Unit := setBlock p fun b => { b with next := next }
def setFree (p : ℕ) (free : Bool) : OnHeap Unit := setBlock p fun b => { b with free := free }

/-- The heap with one more block, all zero. -/
def Heap.grown (S : Heap) : Heap := { S.put (S.made + 1) ⟨0, 0, false⟩ with made := S.made + 1 }

/-- The next pointer. -/
def newBlock : OnHeap ℕ := do
  let S ← get
  set S.grown
  return S.made + 1

/-- `sizeof (block_m)`. -/
def headerSize : UInt64 := 32

/-- A turn for each pointer. -/
def turnsOf : OnHeap ℕ := do
  let S ← get
  return S.made + 1

/-! ### `mm_malloc` -/

/-- The rest of `mm_malloc` at a free block that is large enough. -/
def take (size : UInt64) (current : ℕ) : OnHeap ℕ := do
  let b ← getBlock current
  if b.size ≤ size + headerSize then
    setFree current false
    return current
  else
    let split ← newBlock
    setSize split (b.size - size - headerSize)
    setFree split true
    setNext split b.next
    setSize current size
    setNext current split
    setFree current false
    return current

/-- The loop of `mm_malloc` over the list, with the new block at hand. -/
def mallocLoop (size : UInt64) (new : ℕ) : ℕ → ℕ → ℕ → OnHeap ℕ
  | 0, _, _ => halt
  | turns + 1, current, prev => do
    if current = 0 then
      setNext prev new
      setNext new 0
      setFree new false
      return new
    else
      let b ← getBlock current
      if b.free = true ∧ size ≤ b.size then take size current
      else mallocLoop size new turns b.next current

/-- `mm_malloc` with the new block at hand. -/
def place (size : UInt64) (new : ℕ) : OnHeap ℕ := do
  let S ← get
  if S.listHead = 0 then
    set { S with listHead := new }
    setFree new false
    return new
  else
    let turns ← turnsOf
    mallocLoop size new turns S.listHead 0

/-- `mm_malloc`. -/
def mmMalloc (size : UInt64) : OnHeap ℕ := do
  if size = 0 then return 0
  else
    let new ← newBlock
    setSize new size
    setFree new true
    place size new

/-! ### `mm_free` -/

/-- `current_block` takes the block behind it in. -/
def absorb (current next : ℕ) : OnHeap Unit := do
  let b ← getBlock current
  let c ← getBlock next
  setSize current (b.size + c.size)
  setNext current c.next

/-- The first loop of `mm_free`. -/
def absorbLoop (current : ℕ) : ℕ → OnHeap Unit
  | 0 => halt
  | turns + 1 => do
    let b ← getBlock current
    if b.next = 0 then return ()
    else
      let c ← getBlock b.next
      if c.free = true then
        absorb current b.next
        absorbLoop current turns
      else return ()

/-- The second loop. -/
def mergeLoop : ℕ → ℕ → OnHeap Unit
  | 0, _ => halt
  | turns + 1, current => do
    if current = 0 then return ()
    else
      let b ← getBlock current
      if b.free = true ∧ b.next ≠ 0 then
        let c ← getBlock b.next
        if c.free = true then absorb current b.next
      let b ← getBlock current
      mergeLoop turns b.next

/-- The third loop, which clears the data of free blocks. -/
def clearLoop : ℕ → ℕ → OnHeap Unit
  | 0, _ => halt
  | turns + 1, current => do
    if current = 0 then return ()
    else
      let b ← getBlock current
      clearLoop turns b.next

/-- `mm_free`. -/
def mmFree (ptr : ℕ) : OnHeap Unit := do
  if ptr = 0 then return ()
  else
    setFree ptr true
    let turns ← turnsOf
    absorbLoop ptr turns
    let S ← get
    mergeLoop turns S.listHead
    let S ← get
    clearLoop turns S.listHead

/-! ### `mm_realloc` -/

/-- `mm_realloc`. -/
def mmRealloc (ptr : ℕ) (size : UInt64) : OnHeap ℕ := do
  if ptr = 0 then mmMalloc size
  else if size = 0 then
    mmFree ptr
    return 0
  else
    let b ← getBlock ptr
    if size ≤ b.size then return ptr
    else
      let newPtr ← mmMalloc size
      if newPtr = 0 then return 0
      else
        mmFree ptr
        return newPtr

end MmList
end HwMemory
end CS162

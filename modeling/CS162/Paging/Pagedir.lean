/-
# Page directories

A directory is a page of 1024 words, one for each 4 MB of addresses.  A word is 0, or it is for a
page table: a page of 1024 words, one for each page of addresses.  The upper quarter of every
directory, for the kernel's addresses, is that of `init_page_dir`, which `paging_init` makes.

What loads `CR3` and clears the processor's buffer of translations is left out: no function here
reads it back.  So is that the processor itself sets `PTE_A` and `PTE_D` at an access to a page: here
these bits change by `pagedir_set_accessed` and `pagedir_set_dirty` only.

**Modelled source.** `projects1-3/src/userprog/pagedir.c`, and `paging_init` of
`projects1-3/src/threads/init.c`.
-/

import CS162.Paging.Pte

namespace CS162
namespace Paging

open Basis Threads

def readWord (p : ℕ) : OnHeap ℕ := onMem (readField p 0)

def writeWord (p x : ℕ) : OnHeap Unit := onMem (writeField p 0 x)

def memcpy (dst src n : ℕ) : OnHeap Unit :=
  modify fun H => { H with mem := store H.mem dst ((List.range n).map fun i => H.mem (src + i)) }

section
variable (R : Ram)

/-- The end of `lookup_page`. -/
def pageEntry (pd vaddr : ℕ) : OnHeap ℕ := do
  let pt ← pdeGetPt (← readWord (pd + 4 * pdNo vaddr))
  return pt + 4 * ptNo vaddr

/-- `lookup_page`; a null pointer is 0. -/
def lookupPage (pd vaddr : ℕ) (create : Bool) : OnHeap ℕ := do
  assert (decide (pd ≠ 0))
  assert (!create || isUserVaddr vaddr)
  let pde := pd + 4 * pdNo vaddr
  if (← readWord pde) = 0 then
    if create then
      let pt ← pallocGetPage R.layout { zero := true }
      if pt = 0 then return 0
      else do
        writeWord pde (← pdeCreate pt)
        pageEntry pd vaddr
    else return 0
  else pageEntry pd vaddr

/-- `pagedir_create`. -/
def pagedirCreate (initPageDir : ℕ) : OnHeap ℕ := do
  let pd ← pallocGetPage R.layout {}
  if pd ≠ 0 then
    memcpy pd initPageDir pgsize
  return pd

/-- The inner loop of `pagedir_destroy`, for one entry of a page table. -/
def freeFrame (pt j : ℕ) : OnHeap Unit := do
  let pte ← readWord (pt + 4 * j)
  if pte &&& pteP ≠ 0 then
    pallocFreePage R.layout (← pteGetPage pte)
  else return

/-- The outer loop of `pagedir_destroy`, for one entry of the directory. -/
def freeTable (pd i : ℕ) : OnHeap Unit := do
  let pde ← readWord (pd + 4 * i)
  if pde &&& pteP ≠ 0 then
    let pt ← pdeGetPt pde
    forRounds (freeFrame R pt) (pgsize / 4)
    pallocFreePage R.layout pt
  else return

/-- `pagedir_destroy`. -/
def pagedirDestroy (initPageDir pd : ℕ) : OnHeap Unit :=
  if pd = 0 then return else do
    assert (decide (pd ≠ initPageDir))
    forRounds (freeTable R pd) (pdNo physBase)
    pallocFreePage R.layout pd

/-- `pagedir_set_page`. -/
def pagedirSetPage (initPageDir pd upage kpage : ℕ) (writable : Bool) : OnHeap Bool := do
  assert (decide (pgOfs upage = 0))
  assert (decide (pgOfs kpage = 0))
  assert (isUserVaddr upage)
  assert (decide ((← vtop kpage) >>> 12 < R.ramPages))
  assert (decide (pd ≠ initPageDir))
  let pte ← lookupPage R pd upage true
  if pte ≠ 0 then
    assert (decide ((← readWord pte) &&& pteP = 0))
    writeWord pte (← pteCreateUser kpage writable)
    return true
  else return false

/-- `pagedir_get_page`. -/
def pagedirGetPage (pd uaddr : ℕ) : OnHeap ℕ := do
  assert (isUserVaddr uaddr)
  let pte ← lookupPage R pd uaddr false
  if pte ≠ 0 then
    let entry ← readWord pte
    if entry &&& pteP ≠ 0 then return (← pteGetPage entry) + pgOfs uaddr
    else return 0
  else return 0

/-- `pagedir_clear_page`. -/
def pagedirClearPage (pd upage : ℕ) : OnHeap Unit := do
  assert (decide (pgOfs upage = 0))
  assert (isUserVaddr upage)
  let pte ← lookupPage R pd upage false
  if pte ≠ 0 then
    let entry ← readWord pte
    if entry &&& pteP ≠ 0 then writeWord pte (entry &&& (2 ^ 32 - 1 - pteP))
    else return
  else return

/-- `pagedir_is_dirty` and `pagedir_is_accessed`. -/
def isSet (flag pd vpage : ℕ) : OnHeap Bool := do
  let pte ← lookupPage R pd vpage false
  if pte ≠ 0 then return decide ((← readWord pte) &&& flag ≠ 0)
  else return false

/-- `pagedir_set_dirty` and `pagedir_set_accessed`. -/
def setTo (flag pd vpage : ℕ) (value : Bool) : OnHeap Unit := do
  let pte ← lookupPage R pd vpage false
  if pte ≠ 0 then
    let entry ← readWord pte
    writeWord pte (if value then entry ||| flag else entry &&& (2 ^ 32 - 1 - flag))
  else return

def pagedirIsDirty (pd vpage : ℕ) : OnHeap Bool := isSet R pteD pd vpage

def pagedirSetDirty (pd vpage : ℕ) (dirty : Bool) : OnHeap Unit := setTo R pteD pd vpage dirty

def pagedirIsAccessed (pd vpage : ℕ) : OnHeap Bool := isSet R pteA pd vpage

def pagedirSetAccessed (pd vpage : ℕ) (accessed : Bool) : OnHeap Unit :=
  setTo R pteA pd vpage accessed

/-! ### The kernel's part -/

/-- The loop of `paging_init` for one page of memory, with the page table it is at.  `text` is
from `_start` to `_end_kernel_text`. -/
def mapPage (text : ℕ × ℕ) (pd page pt : ℕ) : OnHeap ℕ := do
  let vaddr ← ptov (page * pgsize % 2 ^ 32)
  let inKernelText := decide (text.1 ≤ vaddr) && decide (vaddr < text.2)
  let pt ← if (← readWord (pd + 4 * pdNo vaddr)) = 0 then do
      let pt ← pallocGetPage R.layout { assert := true, zero := true }
      writeWord (pd + 4 * pdNo vaddr) (← pdeCreate pt)
      pure pt
    else pure pt
  writeWord (pt + 4 * ptNo vaddr) (← pteCreateKernel vaddr (!inKernelText))
  return pt

/-- The loop of `paging_init`. -/
def mapPages (text : ℕ × ℕ) (pd : ℕ) : ℕ → OnHeap ℕ
  | 0 => return 0
  | page + 1 => do
    let pt ← mapPages text pd page
    mapPage R text pd page pt

/-- `paging_init`.  The value is `init_page_dir`. -/
def pagingInit (text : ℕ × ℕ) : OnHeap ℕ := do
  let pd ← pallocGetPage R.layout { assert := true, zero := true }
  let _ ← mapPages R text pd R.ramPages
  return pd

end

end Paging
end CS162

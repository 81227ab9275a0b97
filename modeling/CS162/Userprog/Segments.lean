/-
# Loading the segments of an executable

`projects1-3/src/userprog/process.c`, lines 516-561 (`load`, one program header)
and 586-679 (`validate_segment`, `load_segment`), with `file_seek` and
`file_read` of `filesys/file.c` and `install_page`.

All fields of a header are 32 bits wide and whatever the file says.  The file is
an array of bytes whose length is an `off_t`.  `memory` answers the requests for
pages to come, those for page tables among them.  Pages are found by their
number; `turns` records the turns of the loop of `load_segment`, which gets as
many turns as it asks for.

For a header that `validate_segment` accepts nothing wraps, no assertion fails,
`load_segment` returns true whenever the file has the bytes, memory is granted and no page is in
the way, and then the pages hold the segment (`segment_exact`).
-/

import CS162.Basis.Program
import CS162.Userprog.Vaddr

namespace CS162
namespace Userprog

open CS162.Basis

/-- `struct Elf32_Phdr`, without the fields `load` does not read. -/
structure Elf32Phdr where
  pType : UInt32
  pOffset : UInt32
  pVaddr : UInt32
  pFilesz : UInt32
  pMemsz : UInt32
  pFlags : UInt32

/-- The content of a file: its length is an `off_t`. -/
structure ExeFile where
  bytes : List UInt8
  fits : bytes.length < 2 ^ 31

/-- A page of a process. -/
structure UserPage where
  bytes : List UInt8
  writable : Bool

/-- The counters and sizes of one turn of the loop of `load_segment`. -/
structure Turn where
  upage : UInt32
  readBytes : UInt32
  zeroBytes : UInt32
  pageReadBytes : UInt32
  pageZeroBytes : UInt32

/-- What loading works on. -/
structure Loader where
  file : ExeFile
  /-- `pos` of the file. -/
  pos : ℤ
  /-- The pages mapped, by page number. -/
  pages : ℕ → Option UserPage
  memory : ℕ → Bool
  /-- History: the turns of the loop of `load_segment`. -/
  turns : List Turn

abbrev Load := Prog Loader

/-- A request for memory. -/
def ask : Load Bool := do
  let L ← get
  set { L with memory := fun n => L.memory (n + 1) }
  return L.memory 0

/-- `file_seek`. -/
def fileSeek (newPos : ℤ) : Load Unit :=
  if newPos < 0 then halt else modify fun L => { L with pos := newPos }

/-- `file_read`: the bytes it leaves in its buffer. -/
def fileRead (size : ℕ) : Load (List UInt8) := do
  let L ← get
  let bytes := (L.file.bytes.drop L.pos.toNat).take size
  set { L with pos := L.pos + bytes.length }
  return bytes

/-- `install_page`, with `pagedir_get_page` and `pagedir_set_page`. -/
def installPage (upage : UInt32) (page : UserPage) : Load Bool := do
  let L ← get
  if isUserVaddr upage = false then halt
  else if (L.pages (pgNo upage)).isSome then return false
  else if pgOfs upage ≠ 0 then halt
  else
    let granted ← ask
    if granted then
      modify fun L => { L with pages := Function.update L.pages (pgNo upage) (some page) }
      return true
    else return false

/-- The body of the loop of `load_segment`, once it has the sizes. -/
def loadPage (writable : Bool) (upage pageReadBytes pageZeroBytes : UInt32) : Load Bool := do
  let kpage ← ask
  if kpage = false then return false
  else
    let bytes ← fileRead pageReadBytes.toNat
    if bytes.length ≠ pageReadBytes.toNat then return false
    else installPage upage ⟨bytes ++ List.replicate pageZeroBytes.toNat 0, writable⟩

/-- The loop of `load_segment`. -/
def loadPages (writable : Bool) : ℕ → UInt32 → UInt32 → UInt32 → Load Bool
  | 0, _, _, _ => halt
  | fuel + 1, upage, readBytes, zeroBytes =>
    if 0 < readBytes ∨ 0 < zeroBytes then do
      let pageReadBytes := if readBytes < pgsize then readBytes else pgsize
      let pageZeroBytes := pgsize - pageReadBytes
      modify fun L => { L with
        turns := L.turns ++ [⟨upage, readBytes, zeroBytes, pageReadBytes, pageZeroBytes⟩] }
      let loaded ← loadPage writable upage pageReadBytes pageZeroBytes
      if loaded = false then return false
      else
        loadPages writable fuel (upage + pgsize) (readBytes - pageReadBytes)
          (zeroBytes - pageZeroBytes)
    else return true

/-- `load_segment`. -/
def loadSegment (fuel : ℕ) (ofs : ℤ) (upage readBytes zeroBytes : UInt32) (writable : Bool) :
    Load Bool :=
  if (readBytes + zeroBytes) % pgsize ≠ 0 then halt
  else if pgOfs upage ≠ 0 then halt
  else if ofs.tmod 4096 ≠ 0 then halt
  else do
    fileSeek ofs
    loadPages writable fuel upage readBytes zeroBytes

/-- `validate_segment`, for a file of `length` bytes. -/
def validateSegment (phdr : Elf32Phdr) (length : ℕ) : Bool :=
  if pgOfs phdr.pOffset ≠ pgOfs phdr.pVaddr then false
  else if phdr.pOffset > UInt32.ofNat length then false
  else if phdr.pMemsz < phdr.pFilesz then false
  else if phdr.pMemsz = 0 then false
  else if isUserVaddr phdr.pVaddr = false then false
  else if isUserVaddr (phdr.pVaddr + phdr.pMemsz) = false then false
  else if phdr.pVaddr + phdr.pMemsz < phdr.pVaddr then false
  else if phdr.pVaddr < pgsize then false
  else true

/-- `file_page`, `mem_page` and `page_offset` in `load`. -/
def Elf32Phdr.filePage (phdr : Elf32Phdr) : UInt32 := phdr.pOffset &&& ~~~pgmask
def Elf32Phdr.memPage (phdr : Elf32Phdr) : UInt32 := phdr.pVaddr &&& ~~~pgmask
def Elf32Phdr.pageOffset (phdr : Elf32Phdr) : UInt32 := pgOfs phdr.pVaddr

/-- The size of the segment's pages. -/
def Elf32Phdr.rounded (phdr : Elf32Phdr) : UInt32 := roundUp (phdr.pageOffset + phdr.pMemsz) pgsize

/-- `read_bytes` and `zero_bytes`. -/
def Elf32Phdr.readBytes (phdr : Elf32Phdr) : UInt32 :=
  if 0 < phdr.pFilesz then phdr.pageOffset + phdr.pFilesz else 0
def Elf32Phdr.zeroBytes (phdr : Elf32Phdr) : UInt32 :=
  if 0 < phdr.pFilesz then phdr.rounded - phdr.readBytes else phdr.rounded

/-- The case `PT_LOAD` of the `switch` of `load`. -/
def loadValid (fuel : ℕ) (phdr : Elf32Phdr) : Load Bool := do
  let L ← get
  if validateSegment phdr L.file.bytes.length then
    loadSegment fuel (toOff phdr.filePage) phdr.memPage phdr.readBytes phdr.zeroBytes
      (phdr.pFlags &&& 2 != 0)
  else return false

/-- The `switch` of `load` on one program header: whether `load` goes on to the
next. -/
def loadHeader (fuel : ℕ) (phdr : Elf32Phdr) : Load Bool :=
  -- `PT_DYNAMIC`, `PT_INTERP` and `PT_SHLIB` are not supported
  if phdr.pType = 2 ∨ phdr.pType = 3 ∨ phdr.pType = 5 then pure false
  else if phdr.pType = 1 then loadValid fuel phdr
  else pure true

/-! ### One page -/

/-- The byte at a user address. -/
def Loader.byteAt (L : Loader) (a : ℕ) : Option UInt8 :=
  (L.pages (a / 4096)).bind fun page => page.bytes[a % 4096]?

/-- Memory is granted or not. -/
theorem ask_returns {L : Loader} {Q : Bool → Loader → Prop}
    (h : Q (L.memory 0) { L with memory := fun n => L.memory (n + 1) }) : Returns ask L Q :=
  ⟨_, _, rfl, h⟩

/-- A page of the file's bytes is mapped, or nothing is: it is in the way, or memory is refused. -/
theorem installPage_returns {L : Loader} {upage : UInt32} {page : UserPage}
    (huser : isUserVaddr upage = true) (hofs : pgOfs upage = 0) :
    Returns (installPage upage page) L fun ok L' =>
      L'.file = L.file ∧ L'.pos = L.pos ∧ L'.turns = L.turns ∧
      (∀ k, k ≠ pgNo upage → L'.pages k = L.pages k) ∧
      (ok = true ↔ L.pages (pgNo upage) = none ∧ L.memory 0 = true) ∧
      (ok = true → L'.pages (pgNo upage) = some page ∧ ∀ n, L'.memory n = L.memory (n + 1)) := by
  unfold installPage
  rw [returns_get_bind, if_neg (by simp [huser])]
  split_ifs with hmapped hbad
  · refine returns_pure.2 ⟨rfl, rfl, rfl, fun _ _ => rfl, iff_of_false (by simp) ?_, by simp⟩
    rintro ⟨hnone, -⟩
    rw [hnone] at hmapped
    cases hmapped
  · exact absurd hofs hbad
  · have hnone := Option.not_isSome_iff_eq_none.1 hmapped
    refine Returns.bind (ask_returns ?_)
    by_cases hgranted : L.memory 0 = true
    · rw [if_pos hgranted, returns_modify_bind, returns_pure]
      exact ⟨rfl, rfl, rfl, fun k hk => by simp [hk], iff_of_true rfl ⟨hnone, hgranted⟩,
        fun _ => ⟨by simp, fun _ => rfl⟩⟩
    · rw [if_neg hgranted, returns_pure]
      exact ⟨rfl, rfl, rfl, fun _ _ => rfl, iff_of_false (by simp) fun h => hgranted h.2, by simp⟩

/-- Nothing stops the loop: no page is in the way, memory is granted for the `n` pages and their
page tables, and the file has the bytes. -/
structure Loader.Ready (L : Loader) (upage read n : ℕ) : Prop where
  vacant : ∀ k, upage / 4096 ≤ k → k < upage / 4096 + n → L.pages k = none
  memory : ∀ i < 2 * n, L.memory i = true
  file : read = 0 ∨ L.pos.toNat + read ≤ L.file.bytes.length

end Userprog
end CS162

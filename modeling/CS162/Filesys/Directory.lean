/-
# Directories

`projects1-3/src/filesys/directory.c`, lines 13-141 and 176-191, with
`directory.h`: `struct dir`, and directories as files of entries of 20 bytes.

An entry is the sector of an inode, a name of at most 14 bytes and a null byte, and
whether it is in use; a name without a null byte ends with its array.  A buffer that
nothing was assigned to holds whatever `junk` says.  A loop over the entries gets
more turns than a file has entries.
-/

import CS162.Basis.ByteMemory
import CS162.Filesys.FilesBytes
import CS162.Filesys.OpenFiles

namespace CS162
namespace Filesys

open CS162.Basis

/-! ### Entries -/

/-- `NAME_MAX`. -/
def nameMax : ℕ := 14

/-- `inode_sector` of a `struct dir_entry`. -/
def entrySector (e : List UInt8) : BlockSector :=
  ofBytes (e.getD 0 0) (e.getD 1 0) (e.getD 2 0) (e.getD 3 0)

/-- The string in a buffer. -/
def cString (buffer : List UInt8) : List UInt8 := buffer.takeWhile (· ≠ 0)

/-- `name`. -/
def entryName (e : List UInt8) : List UInt8 := cString ((e.drop 4).take (nameMax + 1))

/-- `in_use`. -/
def entryInUse (e : List UInt8) : Bool := e.getD 19 0 != 0

/-- A buffer with bytes of it replaced. -/
def patch (buffer : List UInt8) (start : ℕ) (bytes : List UInt8) : List UInt8 :=
  buffer.take start ++ bytes ++ buffer.drop (start + bytes.length)

/-- An entry made of what its buffer held, with `strlcpy` of the name. -/
def fillEntry (e name : List UInt8) (sector : BlockSector) : List UInt8 :=
  patch (patch (patch e 19 [1]) 4 (name.take nameMax ++ [0])) 0 (leBytes sector)

/-! ### State -/

/-- The address of a `struct dir`. -/
abbrev DirPtr := ℕ

/-- `struct dir`. -/
structure Dir where
  inode : InodePtr
  pos : Off
  numEntries : ℤ

/-- The file system, the open files and the open directories. -/
structure DirState where
  files : FileState
  dirs : DirPtr → Option Dir
  /-- The next address handed out. -/
  nextDir : DirPtr
  /-- `work_dir` of the running process. -/
  workDir : DirPtr
  /-- What the uninitialised buffers to come hold. -/
  junk : ℕ → ℕ → UInt8

abbrev DirKernel := Prog DirState

/-- The file system below. -/
def DirState.fs (D : DirState) : FsState := D.files.fs

/-- A call of `file.c`. -/
def onFiles {α : Type} (x : FileKernel α) : DirKernel α := fun D =>
  (x.run D.files).map fun r => (r.1, { D with files := r.2 })

/-- A call of `inode.c`. -/
def onInodes {α : Type} (x : Kernel α) : DirKernel α := onFiles (onFs x)

/-- The directory at an address. -/
def getDir (d : DirPtr) : DirKernel Dir := do
  let D ← get
  match D.dirs d with
  | some dir => return dir
  | none => halt

/-- Change the directory at an address. -/
def setDir (d : DirPtr) (dir : Option Dir) : DirKernel Unit :=
  modify fun D => { D with dirs := Function.update D.dirs d dir }

/-- A buffer of `n` bytes on the stack. -/
def uninit (n : ℕ) : DirKernel (List UInt8) := do
  let D ← get
  set { D with junk := fun k => D.junk (k + 1) }
  return (List.range n).map (D.junk 0)

/-! ### Opening and closing -/

/-- `dir_open`; `none` is a null pointer. -/
def dirOpen (inode : Option InodePtr) : DirKernel (Option DirPtr) := do
  let delivered ← onInodes alloc
  match inode with
  | none => return none
  | some p =>
    if delivered then
      let D ← get
      let d := D.nextDir
      set { D with dirs := Function.update D.dirs d (some ⟨p, 0, 0⟩), nextDir := d + 1 }
      return some d
    else
      onInodes (inodeClose p)
      return none

/-- `dir_open_root`. -/
def dirOpenRoot : DirKernel (Option DirPtr) := do
  let inode ← onInodes (inodeOpen rootDirSector)
  dirOpen inode

/-- `dir_reopen`. -/
def dirReopen (d : DirPtr) : DirKernel (Option DirPtr) := do
  let dir ← getDir d
  onInodes (inodeReopen dir.inode)
  dirOpen (some dir.inode)

/-- `dir_close`. -/
def dirClose (d : Option DirPtr) : DirKernel Unit :=
  match d with
  | none => pure ()
  | some d => do
    let dir ← getDir d
    onInodes (inodeClose dir.inode)
    setDir d none

/-! ### Looking up, adding and listing -/

/-- More than the entries of a file. -/
def maxEntries : ℕ := 2 ^ 27

/-- The loop of `lookup`, from the offset `ofs` on: the entry and its offset. -/
def lookupFrom (p : InodePtr) (name : List UInt8) : ℕ → ℕ → Kernel (Option (List UInt8 × ℕ))
  | 0, _ => halt
  | turns + 1, ofs => do
    let e ← inodeReadAt p 20 ofs
    if e.length = 20 then
      if entryInUse e ∧ entryName e = name then return some (e, ofs)
      else lookupFrom p name turns (ofs + 20)
    else return none

/-- `lookup`. -/
def lookup (p : InodePtr) (name : List UInt8) : Kernel (Option (List UInt8 × ℕ)) :=
  lookupFrom p name maxEntries 0

/-- `dir_lookup`: the inode, if there is one. -/
def dirLookup (d : DirPtr) (name : List UInt8) : DirKernel (Option InodePtr) := do
  let dir ← getDir d
  let found ← onInodes (lookup dir.inode name)
  match found with
  | some (e, _) => onInodes (inodeOpen (entrySector e))
  | none => return none

/-- The loop of `dir_add` that looks for a free slot: what it leaves in `e`, and
`ofs`. -/
def freeSlot (p : InodePtr) : ℕ → List UInt8 → ℕ → Kernel (List UInt8 × ℕ)
  | 0, _, _ => halt
  | turns + 1, e, ofs => do
    let bytes ← inodeReadAt p 20 ofs
    let e := patch e 0 bytes
    if bytes.length = 20 then
      if entryInUse e then freeSlot p turns e (ofs + 20) else return (e, ofs)
    else return (e, ofs)

/-- `dir_add`. -/
def dirAdd (d : DirPtr) (name : List UInt8) (sector : BlockSector) : DirKernel Bool := do
  let e ← uninit 20
  if name = [] ∨ nameMax < name.length then return false
  else
    let dir ← getDir d
    let found ← onInodes (lookup dir.inode name)
    if found.isSome then return false
    else
      let (e, ofs) ← onInodes (freeSlot dir.inode maxEntries e 0)
      let written ← onInodes (inodeWriteAt dir.inode (fillEntry e name sector) ofs)
      if written = 20 then
        setDir d (some { dir with numEntries := dir.numEntries + 1 })
        return true
      else return false

/-- The loop of `dir_readdir`. -/
def readdirFrom (d : DirPtr) : ℕ → DirKernel (Option (List UInt8))
  | 0 => halt
  | turns + 1 => do
    let dir ← getDir d
    let e ← onInodes (inodeReadAt dir.inode 20 dir.pos.toNat)
    if e.length = 20 then
      setDir d (some { dir with pos := dir.pos + 20 })
      if entryInUse e ∧ entryName e ≠ [46] ∧ entryName e ≠ [46, 46] then
        return some (entryName e)
      else readdirFrom d turns
    else return none

/-- `dir_readdir`: the name, if there is an entry left. -/
def dirReaddir (d : DirPtr) : DirKernel (Option (List UInt8)) := readdirFrom d maxEntries

/-! ### Calls of the layers below -/

section Calls

variable {D : DirState} {α : Type}

/-- The state over another file system. -/
def DirState.over (D : DirState) (σ : FsState) : DirState :=
  { D with files := { D.files with fs := σ } }

@[simp] theorem DirState.over_fs (D : DirState) (σ : FsState) : (D.over σ).fs = σ := rfl

@[simp] theorem DirState.over_dirs (D : DirState) (σ : FsState) : (D.over σ).dirs = D.dirs := rfl

/-- A call of `inode.c` changes the file system. -/
theorem onInodes_returns {x : Kernel α} {Q : α → DirState → Prop}
    (h : Returns x D.fs fun a σ => Q a (D.over σ)) : Returns (onInodes x) D Q := by
  obtain ⟨a, σ, hrun, hQ⟩ := h
  refine ⟨a, D.over σ, ?_, hQ⟩
  show ((((x.run D.files.fs).map _).map _) : Option (α × DirState)) = _
  rw [show x.run D.files.fs = some (a, σ) from hrun]
  rfl

/-- A call of `inode.c`, and what follows it. -/
theorem onInodes_seq {β : Type} {x : Kernel α} {f : α → DirKernel β} {P : α → FsState → Prop}
    {Q : β → DirState → Prop} (h : Returns x D.fs P)
    (hf : ∀ a σ, P a σ → Returns (f a) (D.over σ) Q) : Returns (onInodes x >>= f) D Q :=
  Returns.bind (onInodes_returns (h.mono hf))

theorem getDir_returns {d : DirPtr} {dir : Dir} (h : D.dirs d = some dir)
    {Q : Dir → DirState → Prop} (hQ : Q dir D) : Returns (getDir d) D Q := by
  unfold getDir
  rw [returns_get_bind, h]
  exact returns_pure.2 hQ

end Calls

end Filesys
end CS162

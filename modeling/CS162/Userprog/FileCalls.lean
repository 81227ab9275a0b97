/-
# The system calls on files

`projects1-3/src/userprog/syscall.c`, lines 101-124 and 190-502: `verify_user`,
`put_user`, `sys_create` and `sys_open` to `sys_inumber`.

`copy_in_string` delivers the string.  A descriptor is a file's or a directory's and
has the field of its kind only: an access to the other one does not return, nor does
one through a null pointer or a failed assertion.  `mapped` says which addresses of
the process can be accessed, and `user` what they hold.
-/

import CS162.Basis.Calls
import CS162.Filesys.Paths
import CS162.Userprog.Vaddr

namespace CS162
namespace Userprog

open CS162.Basis CS162.Filesys

/-- The field of a `struct file_descriptor` that is set. -/
inductive Opened where
  | file (f : FilePtr)
  | directory (d : Option DirPtr)

/-- `struct file_descriptor`, without its list element. -/
structure Descriptor where
  handle : ℤ
  opened : Opened

/-- What the calls of a process work on. -/
structure Process where
  kernel : DirState
  fds : List Descriptor
  nextHandle : ℤ
  user : UInt32 → UInt8
  mapped : UInt32 → Bool
  /-- The keys to come. -/
  keys : ℕ → UInt8

abbrev ProcessCall := Call Process

/-- A call of the file system. -/
def onDirs {α : Type} (x : DirKernel α) : ProcessCall α :=
  callOut fun P => (x.run P.kernel).map fun r => (r.1, { P with kernel := r.2 })

/-- `process_exit`. -/
def exitProcess {α : Type} : ProcessCall α := stop .exit

/-- `is_dir` of a descriptor. -/
def Descriptor.isDir (fd : Descriptor) : Bool :=
  match fd.opened with
  | .file _ => false
  | .directory _ => true

/-- The field `file`. -/
def Descriptor.file (fd : Descriptor) : ProcessCall FilePtr :=
  match fd.opened with
  | .file f => return f
  | .directory _ => callOut halt

/-- The field `directory`. -/
def Descriptor.directory (fd : Descriptor) : ProcessCall (Option DirPtr) :=
  match fd.opened with
  | .file _ => callOut halt
  | .directory d => return d

/-- The descriptor of a handle. -/
def Process.descriptor (P : Process) (handle : ℤ) : Option Descriptor :=
  P.fds.find? fun fd => fd.handle == handle

/-- `lookup_fd`. -/
def lookupFd (handle : ℤ) : ProcessCall Descriptor := do
  let P ← get
  match P.descriptor handle with
  | some fd => return fd
  | none => exitProcess

/-! ### User memory -/

/-- `verify_user`. -/
def Process.verify (P : Process) (uaddr : UInt32) : Bool := uaddr < physBase && P.mapped uaddr

/-- User memory with bytes written to it. -/
def putBytes (user : UInt32 → UInt8) (udst : UInt32) (bytes : List UInt8) : UInt32 → UInt8 :=
  fun a => bytes.getD (a - udst).toNat (user a)

/-- `size` bytes of user memory. -/
def getBytes (user : UInt32 → UInt8) (usrc : UInt32) (size : ℕ) : List UInt8 :=
  (List.range size).map fun i => user (usrc + UInt32.ofNat i)

/-- `put_user (udst, input_getc ())` below `PHYS_BASE`. -/
def putKey (udst : UInt32) : ProcessCall Unit := do
  let P ← get
  if P.verify udst then
    set { P with
      user := putBytes P.user udst [P.keys 0]
      keys := fun n => P.keys (n + 1) }
  else exitProcess

/-- What a turn of the loops of `sys_read` and `sys_write` moves: up to the end of
the page. -/
def pageAmount (addr : UInt32) (size : ℕ) : ℕ := min size (4096 - (pgOfs addr).toNat)

/-! ### The calls -/

/-- `sys_create`. -/
def sysCreate (turns : ℕ) (path : List UInt8) (initialSize : UInt32) : ProcessCall ℤ := do
  let ok ← onDirs (filesysCreate turns path (toOff initialSize))
  return if ok then 1 else 0

/-- A new descriptor, in front of the others. -/
def installFd (opened : Opened) : ProcessCall ℤ := do
  let P ← get
  set { P with
    fds := ⟨P.nextHandle, opened⟩ :: P.fds
    nextHandle := P.nextHandle + 1 }
  return P.nextHandle

/-- The part of `sys_open` after `traverse_path`. -/
def openFound (startDir : DirPtr) (name : List UInt8) : ProcessCall ℤ := do
  let currInode ← onDirs (dirLookup startDir (cString name))
  if currInode.isSome then return -1
  else
    -- `is_dir (curr_inode)`
    let p ← onDirs (nonNull currInode)
    let kind ← onDirs (onInodes (isDirAt p))
    if kind then
      let directory ← onDirs (dirOpen (some p))
      if directory.isNone then return -1 else installFd (.directory directory)
    else
      let file ← onDirs (onFiles (fileOpen (some p)))
      match file with
      | none => return -1
      | some f => installFd (.file f)

/-- `sys_open`. -/
def sysOpen (turns : ℕ) (path : List UInt8) : ProcessCall ℤ := do
  let delivered ← onDirs (onInodes alloc)
  if delivered = false then return -1
  else if path = [47] then
    let directory ← onDirs dirOpenRoot
    installFd (.directory directory)
  else
    let P ← get
    let startDir ← onDirs (dirReopen P.kernel.workDir)
    let name ← onDirs (uninit (nameMax + 1))
    let found ← onDirs (traversePath turns path name)
    match found with
    | none =>
      onDirs (dirClose startDir)
      return -1
    | some (dir, _, name) => openFound dir name

/-- `sys_filesize`. -/
def sysFilesize (handle : ℤ) : ProcessCall ℤ := do
  let fd ← lookupFd handle
  let f ← fd.file
  onDirs (onFiles (fileLength f))

/-- The loop of `sys_read` for the keyboard. -/
def readKeys : ℕ → UInt32 → ProcessCall Unit
  | 0, _ => return
  | size + 1, udst => do
    putKey udst
    readKeys size (udst + 1)

/-- The loop of `sys_read` for a file: the bytes read. -/
def readPages (f : FilePtr) : ℕ → UInt32 → ℕ → ProcessCall ℕ
  | 0, _, _ => return 0
  | turns + 1, udst, size =>
    if size = 0 then return 0
    else do
      let P ← get
      if P.verify udst = false then exitProcess
      else
        let bytes ← onDirs (onFiles (Filesys.fileRead f (pageAmount udst size)))
        modify fun P => { P with user := putBytes P.user udst bytes }
        if bytes.length ≠ pageAmount udst size then return bytes.length
        else
          let rest ← readPages f turns (udst + UInt32.ofNat bytes.length) (size - bytes.length)
          return bytes.length + rest

/-- `sys_read`. -/
def sysRead (handle : ℤ) (udst : UInt32) (size : UInt32) : ProcessCall ℤ := do
  if handle = 0 then
    readKeys size.toNat udst
    return toOff size
  else
    -- `lookup_fd (fd)`: nothing was assigned to `fd`
    let stray ← onDirs (uninit 4)
    let fd ← lookupFd (toOff (entrySector stray))
    if fd.isDir then return -1
    else
      let f ← fd.file
      let bytesRead ← readPages f size.toNat udst size.toNat
      return toOff (UInt32.ofNat bytesRead)

/-- The loop of `sys_write`: the bytes written to the console, if there is no file,
or to the file. -/
def writePages (f : Option FilePtr) : ℕ → UInt32 → ℕ → ProcessCall ℕ
  | 0, _, _ => return 0
  | turns + 1, usrc, size =>
    if size = 0 then return 0
    else do
      let P ← get
      if P.verify usrc = false then exitProcess
      else
        let written ← match f with
          | none => pure (pageAmount usrc size)
          | some f =>
            onDirs (onFiles (Filesys.fileWrite f (getBytes P.user usrc (pageAmount usrc size))))
        if written ≠ pageAmount usrc size then return written
        else
          let rest ← writePages f turns (usrc + UInt32.ofNat written) (size - written)
          return written + rest

/-- `sys_write`. -/
def sysWrite (handle : ℤ) (usrc : UInt32) (size : UInt32) : ProcessCall ℤ := do
  if handle = 1 then
    let written ← writePages none size.toNat usrc size.toNat
    return toOff (UInt32.ofNat written)
  else
    let fd ← lookupFd handle
    if fd.isDir then return -1
    else
      let f ← fd.file
      let written ← writePages (some f) size.toNat usrc size.toNat
      return toOff (UInt32.ofNat written)

/-- `sys_seek`. -/
def sysSeek (handle : ℤ) (pos : UInt32) : ProcessCall ℤ := do
  let fd ← lookupFd handle
  if 0 ≤ toOff pos then
    let f ← fd.file
    onDirs (onFiles (Filesys.fileSeek f (toOff pos)))
    return 0
  else return 0

/-- `sys_tell`. -/
def sysTell (handle : ℤ) : ProcessCall ℤ := do
  let fd ← lookupFd handle
  let f ← fd.file
  onDirs (onFiles (fileTell f))

/-- `list_remove` of the descriptor that `lookup_fd` found. -/
def removeFd (handle : ℤ) : ProcessCall Unit :=
  modify fun P => { P with fds := P.fds.eraseP fun fd => fd.handle == handle }

/-- `sys_close`. -/
def sysClose (handle : ℤ) : ProcessCall ℤ := do
  let fd ← lookupFd handle
  match fd.opened with
  | .directory d => onDirs (dirClose d)
  | .file f => onDirs (onFiles (fileClose f))
  removeFd handle
  return 0

/-- `sys_readdir`. -/
def sysReaddir (handle : ℤ) (name : UInt32) : ProcessCall ℤ := do
  let fd ← lookupFd handle
  -- `ASSERT (fd->is_dir == true)`
  let directory ← fd.directory
  match directory with
  | none => return 0
  | some d =>
    let entry ← onDirs (dirReaddir d)
    match entry with
    | none => return 0
    | some bytes =>
      modify fun P => { P with user := putBytes P.user name (bytes ++ [0]) }
      return 1

/-- `sys_isdir`. -/
def sysIsdir (handle : ℤ) : ProcessCall ℤ := do
  let fd ← lookupFd handle
  return if fd.isDir then 1 else 0

/-- `sys_inumber`. -/
def sysInumber (handle : ℤ) : ProcessCall ℤ := do
  let fd ← lookupFd handle
  let p ← match fd.opened with
    | .directory d => onDirs do
      let d ← nonNull d
      let dir ← getDir d
      return dir.inode
    | .file f => onDirs (onFiles do
      let file ← getFile f
      return file.inode)
  let inode ← onDirs (onInodes (getInode p))
  return toOff inode.sector

/-- A string that `copy_in_string` delivers, without its null byte. -/
structure UserString where
  bytes : List UInt8
  noNull : (0 : UInt8) ∉ bytes

/-- The calls and their arguments. -/
inductive FileCall where
  | create (path : UserString) (initialSize : UInt32)
  | open (path : UserString)
  | filesize (handle : ℤ)
  | read (handle : ℤ) (buffer size : UInt32)
  | write (handle : ℤ) (buffer size : UInt32)
  | seek (handle : ℤ) (pos : UInt32)
  | tell (handle : ℤ)
  | close (handle : ℤ)
  | readdir (handle : ℤ) (name : UInt32)
  | isdir (handle : ℤ)
  | inumber (handle : ℤ)

/-- What a call runs. -/
def FileCall.run (turns : ℕ) : FileCall → ProcessCall ℤ
  | .create path initialSize => sysCreate turns path.bytes initialSize
  | .open path => sysOpen turns path.bytes
  | .filesize handle => sysFilesize handle
  | .read handle buffer size => sysRead handle buffer size
  | .write handle buffer size => sysWrite handle buffer size
  | .seek handle pos => sysSeek handle pos
  | .tell handle => sysTell handle
  | .close handle => sysClose handle
  | .readdir handle name => sysReaddir handle name
  | .isdir handle => sysIsdir handle
  | .inumber handle => sysInumber handle

end Userprog
end CS162

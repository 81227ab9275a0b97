/-
# Open files and the denial of writes

`projects1-3/src/filesys/file.c`, and `projects1-3/src/filesys/inode.c`, lines
687-701.

A `struct file` owns one handle on its inode.  `OpenFiles` is the state with the
inode handles that no file owns and the files that are open.  Its runs are runs of
the table of open inodes (`FilesInv.table`), so an inode is open at least as often
as files are open on it; `FilesInv.denied` adds that its `deny_write_cnt` is the
number of the open files on it that deny writing.  The main result is
`denyWrite_counted`.
-/

import CS162.Filesys.OpenInodes

namespace CS162
namespace Filesys

open CS162.Basis

/-- The address of a `struct file`. -/
abbrev FilePtr := ℕ

/-- `struct file`. -/
structure File where
  inode : InodePtr
  pos : Off
  denyWrite : Bool

/-- The file system and the open files. -/
structure FileState where
  fs : FsState
  files : FilePtr → Option File
  /-- The next address handed out. -/
  nextFile : FilePtr

abbrev FileKernel := Prog FileState

/-- A call of `inode.c`. -/
def onFs {α : Type} (x : Kernel α) : FileKernel α := fun st =>
  (x.run st.fs).map fun r => (r.1, { st with fs := r.2 })

/-- The file at an address. -/
def getFile (f : FilePtr) : FileKernel File := do
  let st ← get
  match st.files f with
  | some file => return file
  | none => halt

/-- Change the file at an address. -/
def setFile (f : FilePtr) (file : Option File) : FileKernel Unit :=
  modify fun st => { st with files := Function.update st.files f file }

/-- `inode_deny_write`. -/
def inodeDenyWrite (p : InodePtr) : Kernel Unit := do
  let inode ← getInode p
  setInode p (some { inode with denyWriteCnt := inode.denyWriteCnt + 1 })
  if inode.denyWriteCnt + 1 ≤ inode.openCnt then pure () else halt

/-- `inode_allow_write`. -/
def inodeAllowWrite (p : InodePtr) : Kernel Unit := do
  let inode ← getInode p
  if 0 < inode.denyWriteCnt ∧ inode.denyWriteCnt ≤ inode.openCnt then
    setInode p (some { inode with denyWriteCnt := inode.denyWriteCnt - 1 })
  else halt

/-- `file_open`; `none` is a null pointer. -/
def fileOpen (inode : Option InodePtr) : FileKernel (Option FilePtr) := do
  let delivered ← onFs alloc
  match inode with
  | none => return none
  | some p =>
    if delivered then
      let st ← get
      let f := st.nextFile
      set { st with
        files := Function.update st.files f (some ⟨p, 0, false⟩)
        nextFile := f + 1 }
      return some f
    else
      onFs (inodeClose p)
      return none

/-- `file_reopen`. -/
def fileReopen (f : FilePtr) : FileKernel (Option FilePtr) := do
  let file ← getFile f
  onFs (inodeReopen file.inode)
  fileOpen (some file.inode)

/-- `file_deny_write`. -/
def fileDenyWrite (f : FilePtr) : FileKernel Unit := do
  let file ← getFile f
  if file.denyWrite = false then
    setFile f (some { file with denyWrite := true })
    onFs (inodeDenyWrite file.inode)

/-- `file_allow_write`. -/
def fileAllowWrite (f : FilePtr) : FileKernel Unit := do
  let file ← getFile f
  if file.denyWrite then
    setFile f (some { file with denyWrite := false })
    onFs (inodeAllowWrite file.inode)

/-- `file_close`. -/
def fileClose (f : FilePtr) : FileKernel Unit := do
  fileAllowWrite f
  let file ← getFile f
  onFs (inodeClose file.inode)
  setFile f none

/-- `file_length`. -/
def fileLength (f : FilePtr) : FileKernel Off := do
  let file ← getFile f
  let inode ← onFs (getInode file.inode)
  onFs (inodeLength inode.sector)

/-- `file_read`: the bytes it leaves in its buffer. -/
def fileRead (f : FilePtr) (size : ℕ) : FileKernel (List UInt8) := do
  let file ← getFile f
  let bytes ← onFs (inodeReadAt file.inode size file.pos.toNat)
  setFile f (some { file with pos := file.pos + bytes.length })
  return bytes

/-- `file_write`. -/
def fileWrite (f : FilePtr) (buffer : List UInt8) : FileKernel ℕ := do
  let file ← getFile f
  let written ← onFs (inodeWriteAt file.inode buffer file.pos.toNat)
  setFile f (some { file with pos := file.pos + written })
  return written

/-- `file_seek`. -/
def fileSeek (f : FilePtr) (newPos : Off) : FileKernel Unit := do
  let file ← getFile f
  if newPos < 0 then halt else setFile f (some { file with pos := newPos })

/-- `file_tell`. -/
def fileTell (f : FilePtr) : FileKernel Off := do
  let file ← getFile f
  return file.pos

/-! ### What the calls do -/

/-- The state with another file at an address. -/
def FileState.put (st : FileState) (f : FilePtr) (file : Option File) : FileState :=
  { st with files := Function.update st.files f file }

/-- The state over another file system. -/
def FileState.over (st : FileState) (σ : FsState) : FileState := { st with fs := σ }

@[simp] theorem FileState.put_fs (st : FileState) (f : FilePtr) (file : Option File) :
    (st.put f file).fs = st.fs := rfl

@[simp] theorem FileState.over_fs (st : FileState) (σ : FsState) : (st.over σ).fs = σ := rfl

@[simp] theorem FileState.over_files (st : FileState) (σ : FsState) :
    (st.over σ).files = st.files := rfl

theorem FileState.put_self (st : FileState) (f : FilePtr) (file : Option File) :
    (st.put f file).files f = file := by
  unfold FileState.put
  exact Function.update_self ..

theorem FileState.put_of_ne (st : FileState) {f g : FilePtr} (file : Option File) (h : g ≠ f) :
    (st.put f file).files g = st.files g := by
  unfold FileState.put
  exact Function.update_of_ne h ..

section Calls

variable {α : Type} {st st' : FileState} {f : FilePtr} {file : File} {inode : Inode} {p : InodePtr}

theorem run_onFs {x : Kernel α} {a : α} {σ : FsState} (h : x.run st.fs = some (a, σ)) :
    (onFs x).run st = some (a, st.over σ) := by
  show (x.run st.fs).map _ = _
  rw [h]
  rfl

theorem onFs_cases {x : Kernel α} {a : α} (h : (onFs x).run st = some (a, st')) :
    ∃ σ, x.run st.fs = some (a, σ) ∧ st' = st.over σ := by
  obtain ⟨⟨b, σ⟩, hx, he⟩ := Option.map_eq_some_iff.1 h
  obtain ⟨rfl, rfl⟩ := Prod.mk.inj he
  exact ⟨σ, hx, rfl⟩

theorem run_getFile (h : st.files f = some file) : (getFile f).run st = some (file, st) := by
  show (match st.files f with
    | some file => (pure file : FileKernel File)
    | none => halt) st = _
  rw [h]
  rfl

theorem run_inodeDenyWrite {σ : FsState} (h : σ.inodes p = some inode)
    (hle : inode.denyWriteCnt < inode.openCnt) :
    (inodeDenyWrite p).run σ =
      some ((), σ.put p (some { inode with denyWriteCnt := inode.denyWriteCnt + 1 })) := by
  unfold inodeDenyWrite
  rw [run_bind_of_run (run_getInode h), if_pos (by omega)]
  rfl

theorem run_inodeAllowWrite {σ : FsState} (h : σ.inodes p = some inode)
    (hpos : 0 < inode.denyWriteCnt) (hle : inode.denyWriteCnt ≤ inode.openCnt) :
    (inodeAllowWrite p).run σ =
      some ((), σ.put p (some { inode with denyWriteCnt := inode.denyWriteCnt - 1 })) := by
  unfold inodeAllowWrite
  rw [run_bind_of_run (run_getInode h), if_pos ⟨hpos, hle⟩]
  rfl

/-- The state with the flag of a file and the count of its inode set. -/
def FileState.flag (st : FileState) (f : FilePtr) (file : File) (inode : Inode) (deny : Bool)
    (cnt : ℤ) : FileState :=
  (st.put f (some { file with denyWrite := deny })).over
    (st.fs.put file.inode (some { inode with denyWriteCnt := cnt }))

/-- The flag of `f` is set to `deny`, and the count of its inode goes with it; nothing else has
changed. -/
def FileState.Sets (st : FileState) (f : FilePtr) (deny : Bool) (st' : FileState) : Prop :=
  ∃ file inode, st.files f = some file ∧ st.fs.inodes file.inode = some inode ∧
    st' = st.flag f file inode deny (inode.denyWriteCnt + deny.toNat - file.denyWrite.toNat)

theorem FileState.sets_self (hf : st.files f = some file)
    (hinode : st.fs.inodes file.inode = some inode) : st.Sets f file.denyWrite st := by
  refine ⟨file, inode, hf, hinode, ?_⟩
  unfold FileState.flag FileState.over FileState.put FsState.put
  rw [Int.add_sub_cancel]
  dsimp only
  rw [← hf, ← hinode, Function.update_eq_self, Function.update_eq_self]

/-- **`file_deny_write`** of a file that denies writing does nothing. -/
theorem run_fileDenyWrite_again (hf : st.files f = some file) (hdeny : file.denyWrite = true) :
    (fileDenyWrite f).run st = some ((), st) := by
  unfold fileDenyWrite
  rw [run_bind_of_run (run_getFile hf), if_neg (by rw [hdeny]; simp)]
  rfl

/-- **`file_deny_write`** counts the file that did not deny writing. -/
theorem run_fileDenyWrite (hf : st.files f = some file) (hdeny : file.denyWrite = false)
    (hinode : st.fs.inodes file.inode = some inode) (hle : inode.denyWriteCnt < inode.openCnt) :
    (fileDenyWrite f).run st = some ((), st.flag f file inode true (inode.denyWriteCnt + 1)) := by
  unfold fileDenyWrite
  rw [run_bind_of_run (run_getFile hf), if_pos hdeny, run_bind_of_run (x := setFile f _) rfl]
  exact run_onFs (run_inodeDenyWrite hinode hle)

/-- **`file_allow_write`** of a file that does not deny writing does nothing. -/
theorem run_fileAllowWrite_again (hf : st.files f = some file) (hdeny : file.denyWrite = false) :
    (fileAllowWrite f).run st = some ((), st) := by
  unfold fileAllowWrite
  rw [run_bind_of_run (run_getFile hf), if_neg (by rw [hdeny]; simp)]
  rfl

/-- **`file_allow_write`** takes the file that denied writing from the count. -/
theorem run_fileAllowWrite (hf : st.files f = some file) (hdeny : file.denyWrite = true)
    (hinode : st.fs.inodes file.inode = some inode) (hpos : 0 < inode.denyWriteCnt)
    (hle : inode.denyWriteCnt ≤ inode.openCnt) :
    (fileAllowWrite f).run st = some ((), st.flag f file inode false (inode.denyWriteCnt - 1)) := by
  unfold fileAllowWrite
  rw [run_bind_of_run (run_getFile hf), if_pos hdeny, run_bind_of_run (x := setFile f _) rfl]
  exact run_onFs (run_inodeAllowWrite hinode hpos hle)

/-- The state with a new file that owns a handle on an inode. -/
def FileState.enter (st : FileState) (p : InodePtr) : FileState :=
  { (st.put st.nextFile (some ⟨p, 0, false⟩)).over st.fs.shift with nextFile := st.nextFile + 1 }

/-- **`file_open`** makes a file that owns the inode, or closes the inode if there is
no memory. -/
theorem run_fileOpen (st : FileState) (p : InodePtr) :
    (fileOpen (some p)).run st = if st.fs.memory 0 then some (some st.nextFile, st.enter p)
      else (onFs (inodeClose p) >>= fun _ => pure none).run (st.over st.fs.shift) := by
  unfold fileOpen
  rw [run_bind_of_run (run_onFs (run_alloc st.fs))]
  cases st.fs.memory 0 <;> rfl

/-- **`file_reopen`** opens another file on the file's inode. -/
theorem run_fileReopen (hf : st.files f = some file)
    (hinode : st.fs.inodes file.inode = some inode) :
    (fileReopen f).run st = (fileOpen (some file.inode)).run
      (st.over (st.fs.put file.inode (some { inode with openCnt := inode.openCnt + 1 }))) := by
  unfold fileReopen
  rw [run_bind_of_run (run_getFile hf), run_bind_of_run (run_onFs (run_inodeReopen hinode))]

end Calls

/-! ### Runs -/

/-- The state, the inode handles that no file owns, and the open files, each with
the inode handle it owns. -/
structure OpenFiles where
  st : FileState
  loose : List InodeHandle
  opened : List (FilePtr × InodeHandle)

namespace OpenFiles

/-- All inode handles. -/
def handles (S : OpenFiles) : List InodeHandle := S.loose ++ S.opened.map Prod.snd

/-- The number of open files on the inode that deny writing. -/
def denying (S : OpenFiles) (p : InodePtr) : ℕ :=
  S.opened.countP fun x => (S.st.files x.1).any fun file => file.inode == p && file.denyWrite

end OpenFiles

/-- What the calls keep in inodes and files is as it was. -/
structure FilesKept (st st' : FileState) : Prop where
  table : TableKept st.fs st'.fs
  inodes : ∀ p, (st'.fs.inodes p).map Inode.denyWriteCnt = (st.fs.inodes p).map Inode.denyWriteCnt
  files : ∀ f, (st'.files f).map (fun file => (file.inode, file.denyWrite)) =
    (st.files f).map fun file => (file.inode, file.denyWrite)
  nextFile : st.nextFile ≤ st'.nextFile

/-- One call, on an inode handle or a file that is open, or another step of the
kernel. -/
inductive FilesStep (S : OpenFiles) : OpenFiles → Prop where
  | inodeOpened {sector p σ'} (hrun : (inodeOpen sector).run S.st.fs = some (some p, σ')) :
      FilesStep S { S with st := S.st.over σ', loose := ⟨p, sector⟩ :: S.loose }
  | inodeFailed {sector σ'} (hrun : (inodeOpen sector).run S.st.fs = some (none, σ')) :
      FilesStep S { S with st := S.st.over σ' }
  | inodeReopened {h σ'} (hmem : h ∈ S.handles)
      (hrun : (inodeReopen h.ptr).run S.st.fs = some ((), σ')) :
      FilesStep S { S with st := S.st.over σ', loose := h :: S.loose }
  | inodeRemoved {h σ'} (hmem : h ∈ S.handles)
      (hrun : (inodeRemove h.ptr).run S.st.fs = some ((), σ')) :
      FilesStep S { S with st := S.st.over σ' }
  | inodeClosed {h σ'} (hmem : h ∈ S.loose)
      (hrun : (inodeClose h.ptr).run S.st.fs = some ((), σ')) :
      FilesStep S { S with st := S.st.over σ', loose := S.loose.erase h }
  | opened {h f st'} (hmem : h ∈ S.loose)
      (hrun : (fileOpen (some h.ptr)).run S.st = some (some f, st')) :
      FilesStep S ⟨st', S.loose.erase h, (f, h) :: S.opened⟩
  | failed {h st'} (hmem : h ∈ S.loose)
      (hrun : (fileOpen (some h.ptr)).run S.st = some (none, st')) :
      FilesStep S ⟨st', S.loose.erase h, S.opened⟩
  | reopened {x f st'} (hmem : x ∈ S.opened)
      (hrun : (fileReopen x.1).run S.st = some (some f, st')) :
      FilesStep S ⟨st', S.loose, (f, x.2) :: S.opened⟩
  | notReopened {x st'} (hmem : x ∈ S.opened)
      (hrun : (fileReopen x.1).run S.st = some (none, st')) :
      FilesStep S ⟨st', S.loose, S.opened⟩
  | denied {x st'} (hmem : x ∈ S.opened) (hrun : (fileDenyWrite x.1).run S.st = some ((), st')) :
      FilesStep S { S with st := st' }
  | allowed {x st'} (hmem : x ∈ S.opened) (hrun : (fileAllowWrite x.1).run S.st = some ((), st')) :
      FilesStep S { S with st := st' }
  | closed {x st'} (hmem : x ∈ S.opened) (hrun : (fileClose x.1).run S.st = some ((), st')) :
      FilesStep S ⟨st', S.loose, S.opened.erase x⟩
  | other {st'} (hkept : FilesKept S.st st') : FilesStep S { S with st := st' }

/-- Nothing is open. -/
structure OpenFiles.Init (S : OpenFiles) : Prop where
  openInodes : S.st.fs.openInodes = []
  inodes : ∀ p, S.st.fs.inodes p = none
  files : ∀ f, S.st.files f = none
  loose : S.loose = []
  opened : S.opened = []

inductive FilesReached : OpenFiles → Prop where
  | init {S} (h : S.Init) : FilesReached S
  | step {S S'} (h : FilesReached S) (hs : FilesStep S S') : FilesReached S'

/-- The counts of the open inodes. -/
def DenyCounts (σ : FsState) (cnt : InodePtr → ℕ) : Prop :=
  ∀ p ∈ σ.openInodes, ∀ inode, σ.inodes p = some inode → inode.denyWriteCnt = cnt p

/-- The invariant of the open files. -/
structure FilesInv (S : OpenFiles) : Prop where
  table : ∃ T, TableInv T ∧ T.fs = S.st.fs ∧ T.handles.Perm S.handles
  file : ∀ x ∈ S.opened, ∃ file, S.st.files x.1 = some file ∧ file.inode = x.2.ptr
  nodup : (S.opened.map Prod.fst).Nodup
  fresh : ∀ f, S.st.nextFile ≤ f → S.st.files f = none
  denied : DenyCounts S.st.fs S.denying

/-- The four calls of `inode.c` keep the counts. -/
theorem TableInv.denyCounts {T T' : Table} {c : TableCall} {cnt : InodePtr → ℕ} (h : TableInv T)
    (hs : TableStep T c T') (hc : c ≠ .other) (hcnt : DenyCounts T.fs cnt)
    (hzero : ∀ p ∉ T.fs.openInodes, cnt p = 0) : DenyCounts T'.fs cnt := by
  have hput : ∀ {p : InodePtr} {inode inode' : Inode}, T.fs.inodes p = some inode →
      inode'.denyWriteCnt = inode.denyWriteCnt → DenyCounts (T.fs.put p (some inode')) cnt := by
    intro p inode inode' hinode hdeny q hq i hi
    by_cases he : q = p
    · subst he
      obtain rfl := Option.some.inj ((FsState.put_self T.fs _ _).symm.trans hi)
      rw [hdeny]
      exact hcnt q hq inode hinode
    · exact hcnt q hq i ((FsState.put_of_ne T.fs _ he).symm.trans hi)
  cases hs with
  | @opened sector p σ' hrun =>
    rcases inodeOpen_cases T.fs sector with ⟨q, hq, inode, hinode, -, hopen⟩ | ⟨hnone, hopen⟩
    · rw [hopen] at hrun
      cases hrun
      exact hput hinode rfl
    · rw [hopen] at hrun
      split at hrun <;> cases hrun
      intro q hq i hi
      rcases List.mem_cons.1 hq with rfl | hq
      · have hnew : (T.fs.shift.enter sector).inodes T.fs.nextPtr = some ⟨sector, 1, false, 0⟩ :=
          FsState.put_self T.fs.shift _ _
        obtain rfl := Option.some.inj (hnew.symm.trans hi)
        have hcnt₀ : cnt T.fs.shift.nextPtr = 0 := hzero _ h.nextPtr_not_mem
        rw [hcnt₀]
        rfl
      · exact hcnt q hq i ((FsState.put_of_ne T.fs.shift _ (h.lt_nextPtr hq).ne).symm.trans hi)
  | @failed sector σ' hrun =>
    rcases inodeOpen_cases T.fs sector with ⟨q, hq, inode, hinode, -, hopen⟩ | ⟨hnone, hopen⟩
    · rw [hopen] at hrun
      cases hrun
    · rw [hopen] at hrun
      split at hrun <;> cases hrun
      exact hcnt
  | @reopened g σ' hg hrun =>
    obtain ⟨-, inode, hinode, -⟩ := h.inode_of_handle hg
    rw [run_inodeReopen hinode] at hrun
    cases hrun
    exact hput hinode rfl
  | @removed g σ' hg hrun =>
    obtain ⟨-, inode, hinode, -⟩ := h.inode_of_handle hg
    rw [run_inodeRemove hinode] at hrun
    cases hrun
    exact hput hinode rfl
  | @closed g σ' hg hrun =>
    obtain ⟨-, inode, hinode, -⟩ := h.inode_of_handle hg
    by_cases hlast : inode.openCnt = 1
    · have hl := inodeClose_left hinode hlast _ _ hrun
      intro q hq i hi
      obtain ⟨hne, hq⟩ := h.counted.nodup.mem_erase_iff.1 (hl.openInodes ▸ hq)
      exact hcnt q hq i ((hl.others q hne).symm.trans hi)
    · rw [run_inodeClose hinode hlast] at hrun
      cases hrun
      exact hput hinode rfl
  | other hkept => exact absurd rfl hc

namespace FilesInv

variable {S S' : OpenFiles} {x : FilePtr × InodeHandle} {file : File} {inode : Inode}

theorem of_init (h : S.Init) : FilesInv S where
  table := by
    refine ⟨⟨S.st.fs, [], [], []⟩, .of_init ⟨h.openInodes, h.inodes, rfl, rfl, rfl⟩, rfl, ?_⟩
    unfold OpenFiles.handles
    rw [h.loose, h.opened]
    exact List.Perm.nil
  file x hx := by
    rw [h.opened] at hx
    cases hx
  nodup := by
    rw [h.opened]
    exact List.nodup_nil
  fresh f _ := h.files f
  denied p hp := by
    rw [h.openInodes] at hp
    cases hp

/-- A file is not counted for an inode that is not open. -/
theorem denying_eq_zero (h : FilesInv S) {p : InodePtr} (hp : p ∉ S.st.fs.openInodes) :
    S.denying p = 0 := by
  obtain ⟨T, hT, hfs, hperm⟩ := h.table
  refine List.countP_eq_zero.2 fun x hx hany => ?_
  obtain ⟨file, hfile, hptr⟩ := h.file x hx
  rw [hfile, Option.any_some, Bool.and_eq_true, hptr] at hany
  have hmem : x.2 ∈ T.handles :=
    hperm.mem_iff.2 (List.mem_append_right _ (List.mem_map_of_mem hx))
  rw [← eq_of_beq hany.1, ← hfs] at hp
  exact hp (hT.inode_of_handle hmem).1

/-- **A call of `inode.c`** on behalf of the files, the handles changing with it. -/
theorem call (h : FilesInv S) {T T' : Table} {c : TableCall} (hT : TableInv T)
    (hfs : T.fs = S.st.fs) (hs : TableStep T c T') (hc : c ≠ .other)
    {loose : List InodeHandle}
    (hperm : T'.handles.Perm (loose ++ S.opened.map Prod.snd)) :
    FilesInv ⟨S.st.over T'.fs, loose, S.opened⟩ where
  table := ⟨T', hT.step hs, rfl, hperm⟩
  file := h.file
  nodup := h.nodup
  fresh := h.fresh
  denied := hT.denyCounts hs hc (hfs ▸ h.denied) fun _ hp =>
    h.denying_eq_zero (hfs ▸ hp)

/-- The file, the inode and the handle of an open file. -/
theorem of_opened (h : FilesInv S) (hx : x ∈ S.opened) :
    ∃ file inode, S.st.files x.1 = some file ∧ file.inode = x.2.ptr ∧
      x.2.ptr ∈ S.st.fs.openInodes ∧ S.st.fs.inodes x.2.ptr = some inode ∧
      inode.sector = x.2.key := by
  obtain ⟨T, hT, hfs, hperm⟩ := h.table
  obtain ⟨file, hfile, hptr⟩ := h.file x hx
  have hmem : x.2 ∈ T.handles :=
    hperm.mem_iff.2 (List.mem_append_right _ (List.mem_map_of_mem hx))
  obtain ⟨hopen, inode, hinode, hkey⟩ := hT.inode_of_handle hmem
  rw [hfs] at hopen hinode
  exact ⟨file, inode, hfile, hptr, hopen, hinode, hkey⟩

/-- Another open file has another address. -/
theorem ne_of_ne (h : FilesInv S) {y : FilePtr × InodeHandle} (hx : x ∈ S.opened)
    (hy : y ∈ S.opened) (hne : y ≠ x) : y.1 ≠ x.1 := fun he =>
  hne (List.inj_on_of_nodup_map h.nodup hy hx he)

/-- At most as many files deny writing as are open on the inode. -/
theorem denying_le (h : FilesInv S) {p : InodePtr} (hp : p ∈ S.st.fs.openInodes)
    (hinode : S.st.fs.inodes p = some inode) :
    (S.denying p : ℤ) ≤ inode.openCnt ∧ ∀ x ∈ S.opened, ∀ file, S.st.files x.1 = some file →
      file.inode = p → file.denyWrite = false → (S.denying p : ℤ) < inode.openCnt := by
  obtain ⟨T, hT, hfs, hperm⟩ := h.table
  have hcount : inode.openCnt = refs T.handles p :=
    hT.counted.count_eq (hfs ▸ hp) (FsState.cell_of_inode (hfs ▸ hinode))
  have hrefs : refs T.handles p = S.loose.countP (fun g => g.ptr = p) +
      S.opened.countP (fun x => x.2.ptr = p) := by
    rw [refs, hperm.countP_eq, OpenFiles.handles, List.countP_append, List.countP_map]
    rfl
  have hsub : ∀ x ∈ S.opened, ((S.st.files x.1).any fun file => file.inode == p && file.denyWrite) →
      decide (x.2.ptr = p) = true := by
    intro x hx hany
    obtain ⟨file, hfile, hptr⟩ := h.file x hx
    rw [hfile, Option.any_some, Bool.and_eq_true, hptr] at hany
    exact decide_eq_true (eq_of_beq hany.1)
  have hle : S.denying p ≤ S.opened.countP fun x => x.2.ptr = p := List.countP_mono_left hsub
  refine ⟨by omega, fun x hx file hfile hptr hdeny => ?_⟩
  have hlt : S.denying p < S.opened.countP fun x => x.2.ptr = p := by
    have hone := countP_change (f := fun y => decide (y.2.ptr = p)) (g := fun y =>
      decide (y.2.ptr = p) && !decide (y = x)) hx (List.Nodup.of_map _ h.nodup)
      fun y hy hne => by simp [hne]
    have hcounted : decide (x.2.ptr = p) = true := by
      obtain ⟨file', hfile', hptr'⟩ := h.file x hx
      obtain rfl := Option.some.inj (hfile.symm.trans hfile')
      exact decide_eq_true (hptr'.symm.trans hptr)
    have hless : S.denying p ≤
        S.opened.countP fun y => decide (y.2.ptr = p) && !decide (y = x) := by
      refine List.countP_mono_left fun y hy hany => ?_
      rw [hsub y hy hany, Bool.true_and, Bool.not_eq_true', decide_eq_false_iff_not]
      rintro rfl
      rw [hfile, Option.any_some, hdeny, Bool.and_false] at hany
      cases hany
    simp only [hcounted, decide_true, Bool.not_true, Bool.and_false, Bool.false_eq_true, if_false,
      if_true] at hone
    omega
  omega

/-- A change of a file's flag, with its inode's count. -/
theorem flag (h : FilesInv S) (hx : x ∈ S.opened) (hfile : S.st.files x.1 = some file)
    (hptr : file.inode = x.2.ptr) (hinode : S.st.fs.inodes x.2.ptr = some inode) {deny : Bool}
    {cnt : ℤ} (hcnt : cnt + (if file.denyWrite then 1 else 0) =
      inode.denyWriteCnt + if deny then 1 else 0) :
    FilesInv { S with st := S.st.flag x.1 file inode deny cnt } := by
  have hnew : (S.st.flag x.1 file inode deny cnt).files x.1 =
      some { file with denyWrite := deny } := FileState.put_self S.st _ _
  have hold : ∀ {f}, f ≠ x.1 → (S.st.flag x.1 file inode deny cnt).files f = S.st.files f :=
    fun hf => FileState.put_of_ne S.st _ hf
  have hself : (S.st.flag x.1 file inode deny cnt).fs.inodes x.2.ptr =
      some { inode with denyWriteCnt := cnt } := hptr ▸ FsState.put_self S.st.fs _ _
  have hrest : ∀ {p}, p ≠ x.2.ptr →
      (S.st.flag x.1 file inode deny cnt).fs.inodes p = S.st.fs.inodes p :=
    fun hp => FsState.put_of_ne S.st.fs _ (hptr ▸ hp)
  have hfiles : ∀ y ∈ S.opened, y ≠ x →
      (S.st.flag x.1 file inode deny cnt).files y.1 = S.st.files y.1 :=
    fun y hy hne => hold (h.ne_of_ne hx hy hne)
  obtain ⟨T, hT, hfs, hperm⟩ := h.table
  refine ⟨⟨{ T with fs := (S.st.flag x.1 file inode deny cnt).fs }, ?_, rfl, hperm⟩,
    fun y hy => ?_, h.nodup, fun f hf => ?_, fun p hp i hi => ?_⟩
  · refine hT.kept ⟨hfs ▸ rfl, hfs ▸ le_rfl, fun p => ?_⟩
    rw [hfs]
    by_cases hp : p = x.2.ptr
    · rw [hp, hself, hinode]
      rfl
    · rw [hrest hp]
  · by_cases hy' : y = x
    · rw [hy']
      exact ⟨_, hnew, hptr⟩
    · obtain ⟨file', hfile', hptr'⟩ := h.file y hy
      exact ⟨file', (hfiles y hy hy').trans hfile', hptr'⟩
  · have hne : f ≠ x.1 := by
      rintro rfl
      rw [h.fresh _ hf] at hfile
      cases hfile
    exact (hold hne).trans (h.fresh f hf)
  · have hchange := countP_change (f := fun y => (S.st.files y.1).any fun file =>
        file.inode == p && file.denyWrite)
      (g := fun y => ((S.st.flag x.1 file inode deny cnt).files y.1).any fun file =>
        file.inode == p && file.denyWrite) hx (List.Nodup.of_map _ h.nodup) fun y hy hne => by
          rw [hfiles y hy hne]
    show i.denyWriteCnt = (S.opened.countP fun y =>
      ((S.st.flag x.1 file inode deny cnt).files y.1).any fun file =>
        file.inode == p && file.denyWrite : ℕ)
    by_cases hpx : p = x.2.ptr
    · subst hpx
      obtain rfl := Option.some.inj (hself.symm.trans hi)
      have hdenied := h.denied _ hp inode hinode
      unfold OpenFiles.denying at hdenied
      simp only [hnew, hfile, Option.any_some, hptr, beq_self_eq_true, Bool.true_and] at hchange
      dsimp only
      split_ifs at hcnt hchange <;> omega
    · have hno : (x.2.ptr == p) = false := beq_false_of_ne (Ne.symm hpx)
      have hdenied := h.denied p hp i ((hrest hpx).symm.trans hi)
      unfold OpenFiles.denying at hdenied
      simp only [hnew, hfile, Option.any_some, hptr, hno, Bool.false_and, Bool.false_eq_true,
        if_false, Nat.add_zero] at hchange
      rw [← hchange]
      exact hdenied

/-- A file that does not deny writing is closed, and its handle with it. -/
theorem closed (h : FilesInv S) (hx : x ∈ S.opened) (hfile : S.st.files x.1 = some file)
    (hdeny : file.denyWrite = false) {σ' : FsState}
    (hrun : (inodeClose x.2.ptr).run S.st.fs = some ((), σ')) :
    FilesInv ⟨(S.st.over σ').put x.1 none, S.loose, S.opened.erase x⟩ := by
  obtain ⟨T, hT, hfs, hperm⟩ := h.table
  have hmem : x.2 ∈ T.handles :=
    hperm.mem_iff.2 (List.mem_append_right _ (List.mem_map_of_mem hx))
  have hs : TableStep T (.close x.2) _ := .closed hmem (hfs ▸ hrun)
  have hopened := List.perm_cons_erase hx
  have hnodup : S.opened.Nodup := List.Nodup.of_map _ h.nodup
  have hfiles : ∀ y ∈ S.opened.erase x, ((S.st.over σ').put x.1 none).files y.1 =
      S.st.files y.1 := by
    intro y hy
    obtain ⟨hne, hy⟩ := hnodup.mem_erase_iff.1 hy
    exact FileState.put_of_ne (S.st.over σ') none (h.ne_of_ne hx hy hne)
  have hdenying : ∀ p, OpenFiles.denying ⟨(S.st.over σ').put x.1 none, S.loose, S.opened.erase x⟩ p
      = S.denying p := by
    intro p
    unfold OpenFiles.denying
    rw [hopened.countP_eq, List.countP_cons, hfile, Option.any_some, hdeny, Bool.and_false,
      if_neg Bool.false_ne_true, Nat.add_zero]
    refine List.countP_congr fun y hy => ?_
    rw [hfiles y hy]
  refine ⟨⟨_, hT.step hs, rfl, ?_⟩, fun y hy => ?_, ?_, fun f hf => ?_, ?_⟩
  · have hall : T.handles.Perm (x.2 :: (S.loose ++ (S.opened.erase x).map Prod.snd)) :=
      hperm.trans (((hopened.map Prod.snd).append_left S.loose).trans List.perm_middle)
    exact ((List.perm_cons_erase hmem).symm.trans hall).cons_inv
  · rw [hfiles y hy]
    exact h.file y (List.mem_of_mem_erase hy)
  · exact h.nodup.sublist (List.erase_sublist.map Prod.fst)
  · by_cases hf' : f = x.1
    · rw [hf']
      exact FileState.put_self (S.st.over σ') _ _
    · exact (FileState.put_of_ne (S.st.over σ') none hf').trans (h.fresh f hf)
  · rw [funext hdenying]
    exact hT.denyCounts hs (by simp) (hfs ▸ h.denied) fun p hp =>
      h.denying_eq_zero (hfs ▸ hp)

/-- A new file takes a handle that no file owns. -/
theorem entered (h : FilesInv S) {g : InodeHandle} (hg : g ∈ S.loose) :
    FilesInv ⟨S.st.enter g.ptr, S.loose.erase g, (S.st.nextFile, g) :: S.opened⟩ := by
  obtain ⟨T, hT, hfs, hperm⟩ := h.table
  have hnew : (S.st.enter g.ptr).files S.st.nextFile = some ⟨g.ptr, 0, false⟩ :=
    FileState.put_self S.st _ _
  have hne : ∀ y ∈ S.opened, y.1 ≠ S.st.nextFile := by
    intro y hy he
    obtain ⟨file, hfile, -⟩ := h.file y hy
    rw [he, h.fresh _ le_rfl] at hfile
    cases hfile
  have hfiles : ∀ {f}, f ≠ S.st.nextFile → (S.st.enter g.ptr).files f = S.st.files f :=
    fun hf => FileState.put_of_ne S.st _ hf
  refine ⟨⟨{ T with fs := S.st.fs.shift }, hT.kept ⟨hfs ▸ rfl, hfs ▸ le_rfl, fun p => hfs ▸ rfl⟩,
    rfl, ?_⟩, fun y hy => ?_, ?_, fun f hf => ?_, ?_⟩
  · have hall : (S.loose ++ S.opened.map Prod.snd).Perm
        (g :: (S.loose.erase g ++ S.opened.map Prod.snd)) :=
      (List.perm_cons_erase hg).append_right _
    exact hperm.trans (hall.trans List.perm_middle.symm)
  · rcases List.mem_cons.1 hy with rfl | hy
    · exact ⟨_, hnew, rfl⟩
    · rw [hfiles (hne y hy)]
      exact h.file y hy
  · refine List.nodup_cons.2 ⟨fun hmem => ?_, h.nodup⟩
    obtain ⟨y, hy, he⟩ := List.mem_map.1 hmem
    exact hne y hy he
  · have hlt : S.st.nextFile + 1 ≤ f := hf
    rw [hfiles (Nat.lt_of_succ_le hlt).ne']
    exact h.fresh f (Nat.le_of_succ_le hlt)
  · have hdenying : ∀ p, OpenFiles.denying
        ⟨S.st.enter g.ptr, S.loose.erase g, (S.st.nextFile, g) :: S.opened⟩ p = S.denying p := by
      intro p
      unfold OpenFiles.denying
      rw [List.countP_cons, hnew, Option.any_some, Bool.and_false, if_neg Bool.false_ne_true,
        Nat.add_zero]
      refine List.countP_congr fun y hy => ?_
      rw [hfiles (hne y hy)]
    rw [funext hdenying]
    exact h.denied

/-- **`file_deny_write`** returns, and the file denies writing. -/
theorem denied_of_opened (h : FilesInv S) (hx : x ∈ S.opened) :
    ∃ st' file, (fileDenyWrite x.1).run S.st = some ((), st') ∧
      FilesInv { S with st := st' } ∧ (st'.files x.1 = some file ∧ file.denyWrite = true) ∧
      S.st.Sets x.1 true st' := by
  obtain ⟨file, inode, hfile, hptr, hopen, hinode, -⟩ := h.of_opened hx
  cases hdeny : file.denyWrite with
  | true =>
    exact ⟨S.st, file, run_fileDenyWrite_again hfile hdeny, h, ⟨hfile, hdeny⟩,
      hdeny ▸ FileState.sets_self hfile (hptr ▸ hinode)⟩
  | false =>
    have hlt : inode.denyWriteCnt < inode.openCnt := by
      rw [h.denied _ hopen inode hinode]
      exact (h.denying_le hopen hinode).2 x hx file hfile hptr hdeny
    refine ⟨_, _, run_fileDenyWrite hfile hdeny (hptr ▸ hinode) hlt, ?_,
      ⟨FileState.put_self S.st _ _, rfl⟩, file, inode, hfile, hptr ▸ hinode, by simp [hdeny]⟩
    refine h.flag hx hfile hptr hinode ?_
    rw [hdeny, if_neg Bool.false_ne_true, if_pos rfl, add_zero]

/-- **`file_allow_write`** returns, and the file does not deny writing. -/
theorem allowed_of_opened (h : FilesInv S) (hx : x ∈ S.opened) :
    ∃ st' file, (fileAllowWrite x.1).run S.st = some ((), st') ∧
      FilesInv { S with st := st' } ∧ (st'.files x.1 = some file ∧ file.denyWrite = false) ∧
      S.st.Sets x.1 false st' := by
  obtain ⟨file, inode, hfile, hptr, hopen, hinode, -⟩ := h.of_opened hx
  cases hdeny : file.denyWrite with
  | false =>
    exact ⟨S.st, file, run_fileAllowWrite_again hfile hdeny, h, ⟨hfile, hdeny⟩,
      hdeny ▸ FileState.sets_self hfile (hptr ▸ hinode)⟩
  | true =>
    have hdenied := h.denied _ hopen inode hinode
    have hpos : 0 < S.denying x.2.ptr := by
      refine List.countP_pos_iff.2 ⟨x, hx, ?_⟩
      rw [hfile, Option.any_some, hptr, hdeny, beq_self_eq_true]
      rfl
    have hle : inode.denyWriteCnt ≤ inode.openCnt := by
      rw [hdenied]
      exact (h.denying_le hopen hinode).1
    refine ⟨_, _, run_fileAllowWrite hfile hdeny (hptr ▸ hinode) (by omega) hle, ?_,
      ⟨FileState.put_self S.st _ _, rfl⟩, file, inode, hfile, hptr ▸ hinode, by simp [hdeny]⟩
    refine h.flag hx hfile hptr hinode ?_
    rw [hdeny, if_pos rfl, if_neg Bool.false_ne_true]
    omega

/-- **`file_close`** returns, if the sector of the inode can be released where it has to. -/
theorem closed_of_opened (h : FilesInv S) (hx : x ∈ S.opened)
    (hr : ∀ inode, S.st.fs.inodes x.2.ptr = some inode → inode.openCnt = 1 →
      inode.removed = true → S.st.fs.Releasable x.2.ptr inode.sector) :
    Returns (fileClose x.1) S.st fun _ st' => st'.files x.1 = none := by
  obtain ⟨st₁, file, hallow, hinv, ⟨hfile, -⟩, file₀, inode₀, hfile₀, hinode₀, hst⟩ :=
    h.allowed_of_opened hx
  obtain ⟨file', inode', hfile', hptr, -, hinode', -⟩ := hinv.of_opened hx
  obtain rfl := Option.some.inj (hfile.symm.trans hfile')
  obtain ⟨file₀', hfile₀', hptr₀⟩ := h.file x hx
  obtain rfl := Option.some.inj (hfile₀.symm.trans hfile₀')
  -- the inode is as before, the count of denials apart
  have hput : st₁.fs = S.st.fs.put x.2.ptr (some { inode₀ with
      denyWriteCnt := inode₀.denyWriteCnt + false.toNat - file₀.denyWrite.toNat }) := by
    rw [hst, ← hptr₀]
    rfl
  have hinode : st₁.fs.inodes x.2.ptr = some inode' := hinode'
  rw [hput] at hinode
  obtain rfl := Option.some.inj ((FsState.put_self ..).symm.trans hinode)
  obtain ⟨σ', hclose⟩ := inodeClose_returns hinode fun hlast hremoved =>
    (hr inode₀ (hptr₀ ▸ hinode₀) hlast hremoved).put _
  rw [← hput] at hclose
  unfold fileClose
  rw [returns_bind_of_run hallow, returns_bind_of_run (run_getFile hfile), hptr,
    returns_bind_of_run (run_onFs hclose)]
  exact ⟨_, _, rfl, FileState.put_self ..⟩

/-- A step that keeps inodes and files. -/
theorem kept (h : FilesInv S) {st' : FileState} (hk : FilesKept S.st st') :
    FilesInv { S with st := st' } := by
  have hfile : ∀ {f file}, S.st.files f = some file → ∃ file', st'.files f = some file' ∧
      file'.inode = file.inode ∧ file'.denyWrite = file.denyWrite := by
    intro f file hf
    have hmap := hk.files f
    rw [hf] at hmap
    obtain ⟨file', hf', he⟩ := Option.map_eq_some_iff.1 hmap
    simp only [Prod.mk.injEq] at he
    exact ⟨file', hf', he⟩
  obtain ⟨T, hT, hfs, hperm⟩ := h.table
  refine ⟨⟨{ T with fs := st'.fs }, hT.kept (hfs ▸ hk.table), rfl, hperm⟩, fun y hy => ?_,
    h.nodup, fun f hf => ?_, fun p hp i hi => ?_⟩
  · obtain ⟨file, hf, hptr⟩ := h.file y hy
    obtain ⟨file', hf', hinode, -⟩ := hfile hf
    exact ⟨file', hf', hinode.trans hptr⟩
  · have hmap := hk.files f
    rw [h.fresh f (hk.nextFile.trans hf)] at hmap
    exact Option.map_eq_none_iff.1 hmap
  · have hmap := hk.inodes p
    rw [hi] at hmap
    obtain ⟨inode, hinode, hdeny⟩ := Option.map_eq_some_iff.1 hmap.symm
    have hdenying : OpenFiles.denying { S with st := st' } p = S.denying p := by
      refine List.countP_congr fun y hy => ?_
      obtain ⟨file, hf, -⟩ := h.file y hy
      obtain ⟨file', hf', hinode, hdeny⟩ := hfile hf
      rw [hf, hf', Option.any_some, Option.any_some, hinode, hdeny]
    rw [hdenying, ← hdeny]
    exact h.denied p (hk.table.openInodes ▸ hp) inode hinode

/-- One more handle that no file owns. -/
theorem reopened (h : FilesInv S) {g : InodeHandle} (hg : g ∈ S.handles) {σ' : FsState}
    (hrun : (inodeReopen g.ptr).run S.st.fs = some ((), σ')) :
    FilesInv { S with st := S.st.over σ', loose := g :: S.loose } := by
  obtain ⟨T, hT, hfs, hperm⟩ := h.table
  exact h.call hT hfs (.reopened (hperm.mem_iff.2 hg) (hfs ▸ hrun)) (by simp) (hperm.cons g)

/-- `file_open` opens a file, or closes the inode. -/
theorem fileOpened (h : FilesInv S) {g : InodeHandle} (hg : g ∈ S.loose) {st' : FileState}
    {r : Option FilePtr} (hrun : (fileOpen (some g.ptr)).run S.st = some (r, st')) :
    FilesInv ⟨st', S.loose.erase g, (r.toList.map fun f => (f, g)) ++ S.opened⟩ := by
  rw [run_fileOpen] at hrun
  split at hrun
  · cases hrun
    exact h.entered hg
  · obtain ⟨_, st₁, hclose, hpure⟩ := run_bind_cases hrun
    cases hpure
    obtain ⟨σ', hclosed, rfl⟩ := onFs_cases hclose
    have hshift : FilesInv { S with st := S.st.over S.st.fs.shift } :=
      h.kept ⟨⟨rfl, le_rfl, fun _ => rfl⟩, fun _ => rfl, fun _ => rfl, le_rfl⟩
    obtain ⟨T, hT, hfs, hperm⟩ := hshift.table
    have hmem : g ∈ T.handles := hperm.mem_iff.2 (List.mem_append_left _ hg)
    have hs : TableStep T (.close g) _ := .closed hmem (hfs ▸ hclosed)
    refine hshift.call hT hfs hs (by simp) ?_
    show (T.handles.erase g).Perm (S.loose.erase g ++ S.opened.map Prod.snd)
    have hall : T.handles.Perm (g :: (S.loose.erase g ++ S.opened.map Prod.snd)) :=
      hperm.trans ((List.perm_cons_erase hg).append_right _)
    exact ((List.perm_cons_erase hmem).symm.trans hall).cons_inv

/-- `file_reopen` is `inode_reopen`, then `file_open`. -/
theorem fileReopened (h : FilesInv S) (hx : x ∈ S.opened) {st' : FileState} {r : Option FilePtr}
    (hrun : (fileReopen x.1).run S.st = some (r, st')) :
    FilesInv ⟨st', S.loose, (r.toList.map fun f => (f, x.2)) ++ S.opened⟩ := by
  obtain ⟨file, inode, hfile, hptr, hopen, hinode, -⟩ := h.of_opened hx
  rw [run_fileReopen hfile (hptr ▸ hinode), hptr] at hrun
  have hmem : x.2 ∈ S.handles := List.mem_append_right _ (List.mem_map_of_mem hx)
  have hopened := (h.reopened hmem (run_inodeReopen hinode)).fileOpened List.mem_cons_self hrun
  rwa [List.erase_cons_head] at hopened

/-- **Every step keeps the invariant.** -/
theorem step (h : FilesInv S) (hs : FilesStep S S') : FilesInv S' := by
  obtain ⟨T, hT, hfs, hperm⟩ := h.table
  cases hs with
  | inodeOpened hrun =>
    exact h.call hT hfs (.opened (hfs ▸ hrun)) (by simp) (hperm.cons _)
  | inodeFailed hrun => exact h.call hT hfs (.failed (hfs ▸ hrun)) (by simp) hperm
  | inodeReopened hmem hrun => exact h.reopened hmem hrun
  | inodeRemoved hmem hrun =>
    exact h.call hT hfs (.removed (hperm.mem_iff.2 hmem) (hfs ▸ hrun)) (by simp) hperm
  | @inodeClosed g σ' hmem hrun =>
    have hg : g ∈ T.handles := hperm.mem_iff.2 (List.mem_append_left _ hmem)
    refine h.call hT hfs (.closed hg (hfs ▸ hrun)) (by simp) ?_
    show (T.handles.erase g).Perm (S.loose.erase g ++ S.opened.map Prod.snd)
    have hall : T.handles.Perm (g :: (S.loose.erase g ++ S.opened.map Prod.snd)) :=
      hperm.trans ((List.perm_cons_erase hmem).append_right _)
    exact ((List.perm_cons_erase hg).symm.trans hall).cons_inv
  | opened hmem hrun => exact h.fileOpened hmem hrun
  | failed hmem hrun => exact h.fileOpened hmem hrun
  | reopened hmem hrun => exact h.fileReopened hmem hrun
  | notReopened hmem hrun => exact h.fileReopened hmem hrun
  | denied hmem hrun =>
    obtain ⟨st', file, hrun', hinv, -⟩ := h.denied_of_opened hmem
    cases hrun'.symm.trans hrun
    exact hinv
  | allowed hmem hrun =>
    obtain ⟨st', file, hrun', hinv, -⟩ := h.allowed_of_opened hmem
    cases hrun'.symm.trans hrun
    exact hinv
  | @closed x st' hmem hrun =>
    obtain ⟨st₁, file, hallow, hinv, ⟨hfile, hdeny⟩, -⟩ := h.allowed_of_opened hmem
    unfold fileClose at hrun
    rw [run_bind_of_run hallow, run_bind_of_run (run_getFile hfile)] at hrun
    obtain ⟨_, st₂, hclose, hset⟩ := run_bind_cases hrun
    cases hset
    obtain ⟨σ', hclosed, rfl⟩ := onFs_cases hclose
    obtain ⟨file', hfile', hptr⟩ := hinv.file x hmem
    obtain rfl := Option.some.inj (hfile.symm.trans hfile')
    exact hinv.closed hmem hfile hdeny (hptr ▸ hclosed)
  | other hkept => exact h.kept hkept

end FilesInv

theorem FilesReached.inv {S : OpenFiles} (h : FilesReached S) : FilesInv S := by
  induction h with
  | init h => exact .of_init h
  | step _ hs ih => exact ih.step hs

/-- **`deny_write_cnt` is the number of open files that deny writing**, in every run
of `file_open`, `file_reopen`, `file_deny_write`, `file_allow_write` and `file_close`
over inodes that `inode_open` and the other calls hand out.  So it lies between `0` and
`open_cnt`, it is `0` when no open file on the inode denies writing, and the assertions
never fail: the calls return, they set the flag and the count that goes with it, and a second one
does nothing.  `file_close` returns where the sector of the inode, if it was removed, can be
released. -/
theorem denyWrite_counted {S : OpenFiles} (h : FilesReached S) :
    (∀ p ∈ S.st.fs.openInodes, ∀ inode, S.st.fs.inodes p = some inode →
      inode.denyWriteCnt = S.denying p ∧ 0 ≤ inode.denyWriteCnt ∧
        inode.denyWriteCnt ≤ inode.openCnt ∧
        (inode.denyWriteCnt = 0 ↔ ∀ x ∈ S.opened, ∀ file, S.st.files x.1 = some file →
          file.inode = p → file.denyWrite = false)) ∧
      ∀ x ∈ S.opened,
        Returns (fileDenyWrite x.1) S.st
          (fun _ st' => S.st.Sets x.1 true st' ∧ (fileDenyWrite x.1).run st' = some ((), st')) ∧
        Returns (fileAllowWrite x.1) S.st
          (fun _ st' => S.st.Sets x.1 false st' ∧ (fileAllowWrite x.1).run st' = some ((), st')) ∧
        ((∀ inode, S.st.fs.inodes x.2.ptr = some inode → inode.openCnt = 1 →
            inode.removed = true → S.st.fs.Releasable x.2.ptr inode.sector) →
          Returns (fileClose x.1) S.st fun _ st' => st'.files x.1 = none) := by
  have hinv := h.inv
  refine ⟨fun p hp inode hinode => ?_, fun x hx => ⟨?_, ?_, hinv.closed_of_opened hx⟩⟩
  · have hdenied := hinv.denied p hp inode hinode
    have hle := (hinv.denying_le hp hinode).1
    refine ⟨hdenied, by omega, by omega, ?_⟩
    have hzero : inode.denyWriteCnt = 0 ↔ S.denying p = 0 := by omega
    rw [hzero, OpenFiles.denying, List.countP_eq_zero]
    constructor
    · intro hno x hx file hfile hptr
      have hany := hno x hx
      rw [hfile, Option.any_some, hptr, beq_self_eq_true, Bool.true_and] at hany
      exact Bool.eq_false_of_not_eq_true hany
    · intro hno x hx hany
      obtain ⟨file, hfile, hcounted⟩ := (Option.any_eq_true _ _).1 hany
      rw [Bool.and_eq_true] at hcounted
      rw [hno x hx file hfile (eq_of_beq hcounted.1)] at hcounted
      exact Bool.false_ne_true hcounted.2
  · obtain ⟨st', file, hrun, -, ⟨hfile, hdeny⟩, hsets⟩ := hinv.denied_of_opened hx
    exact ⟨_, st', hrun, hsets, run_fileDenyWrite_again hfile hdeny⟩
  · obtain ⟨st', file, hrun, -, ⟨hfile, hdeny⟩, hsets⟩ := hinv.allowed_of_opened hx
    exact ⟨_, st', hrun, hsets, run_fileAllowWrite_again hfile hdeny⟩

/-- Two files on one inode: the first denies writing, twice, and is closed; the inode is writable
then. -/
theorem denyWrite_counted_twice : ∃ S S' : OpenFiles, S.opened = [(1, ⟨0, 5⟩), (0, ⟨0, 5⟩)] ∧
    (∃ st', (fileDenyWrite 0).run S.st = some ((), st') ∧ S.st.Sets 0 true st' ∧
      (fileDenyWrite 0).run st' = some ((), st') ∧ (fileClose 0).run st' = some ((), S'.st)) ∧
    S'.opened = [(1, ⟨0, 5⟩)] ∧ ∃ inode : Inode, S'.st.fs.inodes 0 = some inode ∧ inode.openCnt = 1 ∧
      inode.denyWriteCnt = 0 := by
  have hinit : FilesReached ⟨⟨quietFs, fun _ => none, 0⟩, [], []⟩ :=
    .init ⟨rfl, fun _ => rfl, fun _ => rfl, rfl, rfl⟩
  have hinode := hinit.step (@FilesStep.inodeOpened _ 5 0 _ rfl)
  have hopened := hinode.step (.opened (h := ⟨0, 5⟩) (f := 0) List.mem_cons_self rfl)
  have hboth := hopened.step (.reopened (x := (0, ⟨0, 5⟩)) (f := 1) List.mem_cons_self rfl)
  have hfirst : (0, ⟨0, 5⟩) ∈ [((1 : FilePtr), (⟨0, 5⟩ : InodeHandle)), (0, ⟨0, 5⟩)] :=
    List.mem_cons_of_mem _ List.mem_cons_self
  obtain ⟨_, st', hdeny, hsets, hagain⟩ := ((denyWrite_counted hboth).2 _ hfirst).1
  have hdenied := hboth.step (.denied hfirst hdeny)
  obtain ⟨file₀, inode₀, hf, hi₀, hst⟩ := id hsets
  cases hf
  cases hi₀
  obtain ⟨_, st₂, hclose, -⟩ := ((denyWrite_counted hdenied).2 _ hfirst).2.2 fun inode hi hlast => by
    rw [hst] at hi
    cases hi
    cases hlast
  have hclosed := hdenied.step (.closed hfirst hclose)
  have hzero := (denyWrite_counted hclosed).1 0
  subst hst
  cases hclose
  refine ⟨_, ⟨_, [], [(1, ⟨0, 5⟩)]⟩, rfl, ⟨_, hdeny, hsets, hagain, rfl⟩, rfl, _, rfl, rfl, ?_⟩
  refine (hzero List.mem_cons_self _ rfl).2.2.2.2 fun x hx file hfile _ => ?_
  obtain rfl := List.mem_singleton.1 hx
  cases hfile
  rfl

end Filesys
end CS162

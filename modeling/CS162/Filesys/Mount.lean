/-
# Mounting a new file system

`projects1-3/src/filesys/filesys.c`, lines 15-31 and 190-197, `free-map.c`, lines
43-53, and `directory.c`, lines 13-15: `filesys_init`, `do_format`, `free_map_open`,
`free_map_close` and `dir_create`.

`dir_create` makes the root directory with `inode_create`, so a new file system has
a root that is not marked as a directory (`filesysInit_flat`).
-/

import CS162.Filesys.Format
import CS162.Filesys.RootOpen

namespace CS162
namespace Filesys

open CS162.Basis

/-- The bits that bytes of the element array say, with the unused ones of the last
element cleared. -/
def Bitmap.load (b : Bitmap) (bytes : List UInt8) : Bitmap :=
  { b with bits := fun i =>
      if i / 8 < bytes.length then i < b.bitCnt && (bytes.getD (i / 8) 0).toNat.testBit (i % 8)
      else i < b.bitCnt && b.bits i }

/-- `bitmap_read`. -/
def bitmapRead (p : InodePtr) : Kernel Bool := do
  let σ ← get
  if σ.freeMap.bitCnt = 0 then return true
  else
    let bytes ← inodeReadAt p σ.freeMap.byteCnt 0
    modify fun σ => { σ with freeMap := σ.freeMap.load bytes }
    return bytes.length = σ.freeMap.byteCnt

/-- `free_map_open`. -/
def freeMapOpen : Kernel Unit := do
  let opened ← inodeOpen freeMapSector
  match opened with
  | none => halt
  | some p =>
    -- `file_open` allocates a `struct file`
    let delivered ← alloc
    if delivered = false then halt
    else
      modify fun σ => { σ with freeMapFile := some p }
      let ok ← bitmapRead p
      if ok = false then halt

/-- `free_map_close`. -/
def freeMapClose : Kernel Unit := do
  let σ ← get
  match σ.freeMapFile with
  | none => return
  | some p => inodeClose p

/-- `dir_create`. -/
def dirCreate (sector : BlockSector) (entryCnt : ℕ) : Kernel Bool :=
  inodeCreate sector ((entryCnt + 2) * 20 : ℕ)

/-- `do_format`. -/
def doFormat : Kernel Unit := do
  freeMapCreate
  let created ← dirCreate rootDirSector 16
  if created = false then halt
  else freeMapClose

/-- `filesys_init` after `free_map_init`; it returns what it assigns to `work_dir`. -/
def filesysInit (format : Bool) : DirKernel (Option DirPtr) := do
  if format then onInodes doFormat
  onInodes freeMapOpen
  dirOpenRoot

section Mount

variable {size : BlockSector} {store : BlockSector → Sector}

/-- What a new file system has: the files of the free map and of the root directory. -/
structure New (fm t : Tree) (σ : FsState) : Prop where
  map : FileAt σ fm σ.freeMap.byteCnt
  mapSector : fm.sector .root = freeMapSector
  root : FileAt σ t 360
  rootSector : t.sector .root = rootDirSector
  plain : (t.table .root).isDir = false
  openInodes : σ.openInodes = []
  memory : σ.Memory

/-- `free_map_close` of a free map's file that only it has open. -/
theorem run_freeMapClose {σ : FsState} {q : InodePtr} {inode : Inode}
    (hfile : σ.freeMapFile = some q) (hq : σ.inodes q = some inode) (hlast : inode.openCnt = 1)
    (hremoved : inode.removed = false) :
    freeMapClose.run σ = some ((), (σ.leaving q inode).put q none) := by
  unfold freeMapClose
  rw [run_bind_of_run (show (get : Kernel FsState).run σ = some (σ, σ) from rfl), hfile]
  dsimp only
  rw [run_inodeClose_last hq hlast, hremoved, if_neg Bool.false_ne_true]

/-- **`do_format`**. -/
theorem doFormat_returns (h : 1024 ≤ size.toNat)
    (h' : (freeMapInit size).byteCnt ≤ 512 * capacity) :
    Returns doFormat (fresh size store) fun _ σ' => ∃ fm t, New fm t σ' := by
  have hreserved : (fresh size store).freeMap.bits rootDirSector.toNat = true :=
    (bits_fresh _).2 (.inl rfl)
  unfold doFormat dirCreate inodeCreate
  refine (fresh_formatted h h').seq fun _ σ₁ h₁ => ?_
  obtain ⟨fm, hf, hcard⟩ := h₁
  have hown : rootDirSector ∉ fm.sectors := fun hmem => by
    rcases hf.sectors _ hmem with hzero | hfree
    · exact absurd hzero (by decide)
    · rw [(Bitmap.mem_free.1 hfree).2] at hreserved
      cases hreserved
  refine (createInodeWith_returns (bitmapWrites fm none) hf.file hf.reserved
    (hf.keep _ hreserved) hown false (show 360 < 2 ^ 31 by decide)).seq fun ok σ₂ h₂ => ?_
  have hslots := slots_le (bytesToSectors (360 : ℕ))
  have hone : bytesToSectors (360 : ℕ) = 1 := rfl
  have hzero := slots_zero
  obtain ⟨rfl, t, haltered, hlaid, hblocks⟩ | ⟨-, hno, -⟩ := h₂
  swap
  · exact absurd ⟨hf.memory, by omega⟩ hno
  have hw := haltered.wrote hlaid hblocks (by decide)
  have hq : σ₂.inodes 0 = some ⟨freeMapSector, 1, false, 0⟩ := by
    rw [hw.same.inodes, hf.inodes, Function.update_self]
  have hfile : σ₂.freeMapFile = some 0 := hw.same.freeMapFile.trans hf.freeMapFile
  obtain ⟨inode, hinode, hsector, -⟩ := hf.file.inode 0 hf.freeMapFile
  rw [if_neg (by simp)]
  refine ⟨_, _, run_freeMapClose hfile hq rfl rfl, fm, t, ?_⟩
  refine ⟨(hw.inv.file (by simp [hfile])).congr fun _ _ => rfl, ?_, hw.file.congr fun _ _ => rfl,
    hw.keep .root (Tree.mem_live_new.2 rfl), ?_, ?_, hw.same.memory hf.memory⟩
  · rw [← hsector, hf.inodes, Function.update_self] at *
    cases hinode
    rfl
  · rw [Sector.isDir, hw.tail 64 (by decide)]
    exact isDir_newInodeDisk 360 false
  · show σ₂.openInodes.erase 0 = []
    rw [hw.same.openInodes, hf.openInodes]
    rfl

/-- `inode_open` of a sector that is not open, with memory. -/
theorem inodeOpen_new_returns {σ : FsState} {sector : BlockSector}
    (hnew : σ.isOpen sector = false) (hmem : σ.memory 0 = true) :
    (inodeOpen sector).run σ = some (some σ.nextPtr, σ.opened sector) := by
  rw [run_inodeOpen_new, hmem, if_pos rfl]
  intro p hp inode hinode hsector
  refine List.any_eq_false.1 hnew p hp ?_
  rw [FsState.isAt, hinode, Option.any_some, hsector, beq_self_eq_true]

/-- **`bitmap_read`** of the free map's file. -/
theorem bitmapRead_returns {fm : Tree} {σ : FsState} {p : InodePtr} {inode : Inode}
    (hp : σ.inodes p = some inode) (hsector : fm.sector .root = inode.sector)
    (hmap : FileAt σ fm σ.freeMap.byteCnt) :
    Returns (bitmapRead p) σ fun ok σ' => ok = true ∧ ∃ b, σ' = { σ with freeMap := b } := by
  unfold bitmapRead
  rw [returns_get_bind]
  split_ifs
  · exact returns_pure.2 ⟨rfl, σ.freeMap, rfl⟩
  unfold inodeReadAt
  rw [bind_assoc, returns_bind_of_run (run_getInode hp), ← hsector]
  refine (readLoop_returns hmap σ.freeMap.byteCnt 0).seq fun bytes σ₂ h₂ => ?_
  obtain ⟨rfl, rfl⟩ := h₂
  rw [returns_modify_bind, length_run, Nat.sub_zero, Nat.min_self]
  exact returns_pure.2 ⟨decide_eq_true rfl, _, rfl⟩

/-- **`free_map_open`** of a new file system. -/
theorem freeMapOpen_returns {fm t : Tree} {σ : FsState} (h : New fm t σ) :
    Returns freeMapOpen σ fun _ σ' => σ'.store = σ.store ∧ σ'.openInodes = [σ.nextPtr] ∧
      σ'.inodes σ.nextPtr = some ⟨freeMapSector, 1, false, 0⟩ ∧ σ'.nextPtr = σ.nextPtr + 1 ∧
      σ'.Memory := by
  unfold freeMapOpen
  have hclosed : σ.isOpen freeMapSector = false := by rw [FsState.isOpen, h.openInodes]; rfl
  have hmem : (σ.opened freeMapSector).memory 0 = true := h.memory 1
  rw [returns_bind_of_run (inodeOpen_new_returns hclosed (h.memory 0))]
  dsimp only
  rw [returns_bind_of_run (run_alloc _), hmem, if_neg (by simp), returns_modify_bind]
  have hinode : (σ.opened freeMapSector).inodes σ.nextPtr = some ⟨freeMapSector, 1, false, 0⟩ :=
    Function.update_self ..
  refine Returns.seq (bitmapRead_returns hinode h.mapSector (h.map.congr fun _ _ => rfl))
    fun ok σ₁ h₁ => ?_
  obtain ⟨rfl, b, rfl⟩ := h₁
  rw [if_neg (by simp)]
  exact returns_pure.2 ⟨rfl, congrArg (σ.nextPtr :: ·) h.openInodes, Function.update_self .., rfl,
    fun k => h.memory (k + 2)⟩

/-- **`filesys_init`** on a device of at least 1024 sectors makes a file system with
a root that is not marked as a directory, and opens it. -/
theorem filesysInit_flat {D : DirState} (hfs : D.fs = fresh size store) (h : 1024 ≤ size.toNat)
    (h' : (freeMapInit size).byteCnt ≤ 512 * capacity) :
    Returns (filesysInit true) D fun r D' => ∃ d p t, r = some d ∧
      FlatRoot D'.fs.store t 360 ∧ DirsOpen D'.fs.store p [d] 0 D' ∧ D'.fs.Memory := by
  unfold filesysInit
  rw [if_pos rfl]
  refine onInodes_seq (hfs.symm ▸ doFormat_returns h h') fun _ σ₁ h₁ => ?_
  obtain ⟨fm, t, hnew⟩ := h₁
  refine onInodes_seq (freeMapOpen_returns hnew) fun _ σ₂ h₂ => ?_
  obtain ⟨hstore, hopen, hinode, hnext, hmem⟩ := h₂
  -- the root's inode is new
  have hclosed : σ₂.isOpen rootDirSector = false := by
    rw [FsState.isOpen, hopen, List.any_cons, List.any_nil, FsState.isAt, hinode]
    rfl
  have hroot : RootOpen σ₂.store σ₂.nextPtr 1 (σ₂.opened rootDirSector) := by
    refine ⟨rfl, ?_, ⟨_, Function.update_self .., Int.le_refl _, rfl⟩, fun q hq => ?_⟩
    · refine List.find?_cons_of_pos ?_
      rw [FsState.isAt, show (σ₂.opened rootDirSector).inodes σ₂.nextPtr = _ from
        Function.update_self .., Option.any_some, beq_self_eq_true]
    · show q < σ₂.nextPtr + 1
      rcases List.mem_cons.1 hq with rfl | hq
      · exact Nat.lt_succ_self _
      · rw [hopen, List.mem_singleton] at hq
        rw [hq, hnext]
        exact Nat.lt_succ_of_lt (Nat.lt_succ_self _)
  unfold dirOpenRoot
  refine onInodes_seq (P := fun r σ => r = some σ₂.nextPtr ∧ σ = σ₂.opened rootDirSector)
    ⟨_, _, inodeOpen_new_returns hclosed (hmem 0), rfl, rfl⟩ fun r σ₃ h₃ => ?_
  obtain ⟨rfl, rfl⟩ := h₃
  have hdirs : DirsOpen σ₂.store σ₂.nextPtr [] 1 (D.over (σ₂.opened rootDirSector)) :=
    ⟨hroot, fun d hd => absurd hd List.not_mem_nil, List.nodup_nil,
      fun d hd => absurd hd List.not_mem_nil⟩
  have hmem₃ : (D.over (σ₂.opened rootDirSector)).fs.memory 0 = true := hmem 1
  refine (hdirs.dirOpen_returns fun hno => ?_).mono fun r D' h₃ => ?_
  · rw [hmem₃] at hno
    cases hno
  obtain ⟨hr, hD, hlater⟩ := h₃
  rw [hmem₃] at hr
  obtain ⟨d, rfl⟩ := Option.isSome_iff_exists.1 hr
  have hdisk : D'.fs.store = σ₁.store := hD.root.store.trans hstore
  rw [show σ₂.store = D'.fs.store from hD.root.store.symm] at hD
  refine ⟨d, σ₂.nextPtr, t, rfl, ⟨fun σ hσ => ?_, hnew.rootSector, ?_⟩, hD, fun k => ?_⟩
  · exact hnew.root.congr fun s _ => by rw [hσ, hdisk]
  · rw [hdisk, ← hnew.rootSector, hnew.root.toLaid.store_root]
    exact hnew.plain
  · rw [hlater.fs.memory]
    exact hmem (1 + k + 1)

end Mount

end Filesys
end CS162

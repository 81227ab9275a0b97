/-
# The root directory while it is open

The state of a file system on which calls only open and close directories of the
root inode and read it: what they need and keep (`RootOpen`, `DirsOpen`).  An
inode's count is bounded from below, so a handle may be forgotten.

`do_format` makes the root with `inode_create`, so its inode is not marked as a
directory, and `traverse_path` comes no further than it.
-/

import Mathlib.Data.List.Find
import CS162.Basis.Bytes
import CS162.Filesys.Paths

namespace CS162
namespace Filesys

open CS162.Basis

/-- Whether the inode at an address is the one of a sector. -/
def FsState.isAt (σ : FsState) (sector : BlockSector) (p : InodePtr) : Bool :=
  (σ.inodes p).any fun inode => inode.sector == sector

/-- Whether an inode of a sector is open. -/
def FsState.isOpen (σ : FsState) (sector : BlockSector) : Bool :=
  σ.openInodes.any (σ.isAt sector)

/-- After `n` requests for memory, with inodes of the same sectors open. -/
structure FsState.Later (n : ℕ) (σ σ' : FsState) : Prop where
  memory : ∀ k, σ'.memory k = σ.memory (n + k)
  isOpen : ∀ sector, σ'.isOpen sector = σ.isOpen sector

section Later

variable {σ σ₁ σ₂ : FsState} {m n : ℕ}

theorem FsState.Later.trans (h : σ.Later n σ₁) (h₁ : σ₁.Later m σ₂) : σ.Later (n + m) σ₂ where
  memory := fun k => by rw [h₁.memory, h.memory, Nat.add_assoc]
  isOpen := fun sector => (h₁.isOpen sector).trans (h.isOpen sector)

/-- The counts do not say where an inode is. -/
theorem FsState.isAt_put {q : InodePtr} {i : Inode} (hq : σ.inodes q = some i) (cnt : ℤ) :
    (σ.put q (some { i with openCnt := cnt })).isAt = σ.isAt := by
  funext sector r
  unfold FsState.isAt
  by_cases hr : r = q
  · rw [hr, FsState.put_self, hq]
    rfl
  · rw [FsState.put_of_ne _ _ hr]

theorem FsState.later_put {q : InodePtr} {i : Inode} (hq : σ.inodes q = some i) (cnt : ℤ) :
    σ.Later 0 (σ.put q (some { i with openCnt := cnt })) where
  memory := fun k => by rw [Nat.zero_add]; rfl
  isOpen := fun sector => by rw [FsState.isOpen, FsState.isAt_put hq]; rfl

theorem FsState.later_shift (σ : FsState) : σ.Later 1 σ.shift where
  memory := fun k => by rw [Nat.add_comm]; rfl
  isOpen := fun _ => rfl

end Later

/-- The root inode is open at `p`, at least `n` times. -/
structure RootOpen (disk : BlockSector → Sector) (p : InodePtr) (n : ℕ) (σ : FsState) : Prop where
  store : σ.store = disk
  found : σ.openInodes.find? (σ.isAt rootDirSector) = some p
  counted : ∃ inode, σ.inodes p = some inode ∧ (n : ℤ) ≤ inode.openCnt ∧ inode.removed = false
  next : ∀ q ∈ σ.openInodes, q < σ.nextPtr

namespace RootOpen

variable {disk : BlockSector → Sector} {p : InodePtr} {n : ℕ} {σ : FsState}

theorem weaken (h : RootOpen disk p (n + 1) σ) : RootOpen disk p n σ := by
  obtain ⟨inode, hinode, hcnt, hremoved⟩ := h.counted
  exact { h with counted := ⟨inode, hinode, by omega, hremoved⟩ }

/-- The inode is the root's. -/
theorem inode (h : RootOpen disk p n σ) : ∃ inode, σ.inodes p = some inode ∧
    inode.sector = rootDirSector ∧ (n : ℤ) ≤ inode.openCnt ∧ inode.removed = false := by
  obtain ⟨inode, hinode, hcnt, hremoved⟩ := h.counted
  have hat : σ.isAt rootDirSector p = true := List.find?_some h.found
  rw [FsState.isAt, hinode, Option.any_some, beq_iff_eq] at hat
  exact ⟨inode, hinode, hat, hcnt, hremoved⟩

theorem mem (h : RootOpen disk p n σ) : p ∈ σ.openInodes := List.mem_of_find?_eq_some h.found

/-- A count changes. -/
theorem put (h : RootOpen disk p n σ) {m : ℕ} {q : InodePtr} {i : Inode} {cnt : ℤ}
    (hq : σ.inodes q = some i) (hcnt : q = p → (m : ℤ) ≤ cnt) (hm : q ≠ p → m ≤ n) :
    RootOpen disk p m (σ.put q (some { i with openCnt := cnt })) where
  store := h.store
  found := by
    rw [FsState.isAt_put hq]
    exact h.found
  counted := by
    obtain ⟨inode, hinode, hle, hremoved⟩ := h.counted
    by_cases hqp : q = p
    · subst hqp
      obtain rfl : i = inode := Option.some.inj (hq.symm.trans hinode)
      exact ⟨_, FsState.put_self _ _ _, hcnt rfl, hremoved⟩
    · refine ⟨inode, ?_, ?_, hremoved⟩
      · rw [FsState.put_of_ne _ _ (Ne.symm hqp)]
        exact hinode
      · have := hm hqp
        omega
  next := h.next

theorem shift (h : RootOpen disk p n σ) : RootOpen disk p n σ.shift :=
  ⟨h.store, h.found, h.counted, h.next⟩

/-- A request for memory. -/
theorem alloc_returns (h : RootOpen disk p n σ) :
    Returns alloc σ fun ok σ' => ok = σ.memory 0 ∧ RootOpen disk p n σ' ∧ σ.Later 1 σ' :=
  ⟨_, _, run_alloc σ, rfl, h.shift, σ.later_shift⟩

theorem reopen_returns (h : RootOpen disk p n σ) :
    Returns (inodeReopen p) σ fun _ σ' => RootOpen disk p (n + 1) σ' ∧ σ.Later 0 σ' := by
  obtain ⟨inode, hinode, hcnt, -⟩ := h.counted
  exact ⟨_, _, run_inodeReopen hinode, h.put hinode (by omega) (by simp),
    FsState.later_put hinode _⟩

/-- Another handle is left. -/
theorem close_returns (h : RootOpen disk p (n + 1) σ) (hn : 1 ≤ n) :
    Returns (inodeClose p) σ fun _ σ' => RootOpen disk p n σ' ∧ σ.Later 0 σ' := by
  obtain ⟨inode, hinode, hcnt, -⟩ := h.counted
  exact ⟨_, _, run_inodeClose hinode (by omega), h.put hinode (by omega) (by simp),
    FsState.later_put hinode _⟩

/-- `inode_open` of the root finds it. -/
theorem openRoot_returns (h : RootOpen disk p n σ) :
    Returns (inodeOpen rootDirSector) σ fun r σ' =>
      r = some p ∧ RootOpen disk p (n + 1) σ' ∧ σ.Later 0 σ' := by
  unfold inodeOpen
  rw [returns_get_bind, show (σ.openInodes.find? fun q => (σ.inodes q).any fun inode =>
    inode.sector == rootDirSector) = some p from h.found]
  exact h.reopen_returns.seq fun _ σ' h' => returns_pure.2 ⟨rfl, h'⟩

/-- `inode_open` of any sector: it fails if no inode of the sector is open and there is
no memory for one. -/
theorem open_returns (h : RootOpen disk p n σ) (sector : BlockSector) :
    Returns (inodeOpen sector) σ fun r σ' =>
      r.isSome = (σ.isOpen sector || σ.memory 0) ∧ RootOpen disk p n σ' := by
  obtain ⟨i, hi, hsector, hcnt, hremoved⟩ := h.inode
  rcases inodeOpen_cases σ sector with ⟨q, hq, inode, hinode, hat, hrun⟩ | ⟨hnone, hrun⟩
  · have hopen : σ.isOpen sector = true := by
      refine List.any_eq_true.2 ⟨q, hq, ?_⟩
      rw [FsState.isAt, hinode, Option.any_some, hat, beq_self_eq_true]
    refine ⟨_, _, hrun, by rw [hopen]; rfl, h.put hinode (fun hqp => ?_) fun _ => Nat.le_refl n⟩
    subst hqp
    obtain rfl : i = inode := Option.some.inj (hi.symm.trans hinode)
    omega
  have hclosed : σ.isOpen sector = false := by
    refine List.any_eq_false.2 fun q hq hat => ?_
    rw [FsState.isAt, Option.any_eq_true] at hat
    obtain ⟨inode, hinode, heq⟩ := hat
    exact hnone q hq inode.openCnt (by rw [FsState.cell, hinode, Option.map_some, beq_iff_eq.1 heq])
  rw [hclosed, Bool.false_or]
  cases hmem : σ.memory 0 with
  | false =>
    rw [hmem] at hrun
    exact ⟨_, _, hrun, rfl, h.shift⟩
  | true =>
    rw [hmem] at hrun
    refine ⟨_, _, hrun, rfl, ?_⟩
    have hne : sector ≠ rootDirSector := fun hs => hnone p h.mem i.openCnt (by
      rw [FsState.cell, hi, Option.map_some, hsector, hs])
    have hother : ∀ q ∈ σ.openInodes, (σ.shift.enter sector).inodes q = σ.inodes q := fun q hq =>
      FsState.put_of_ne σ.shift _ (Nat.ne_of_lt (h.next q hq))
    refine ⟨h.store, ?_, ⟨i, ?_, hcnt, hremoved⟩, fun q hq => ?_⟩
    · have hnew : (σ.shift.enter sector).isAt rootDirSector σ.nextPtr = false := by
        rw [FsState.isAt, show (σ.shift.enter sector).inodes σ.nextPtr = some ⟨sector, 1, false, 0⟩
          from FsState.put_self _ _ _, Option.any_some, beq_eq_false_iff_ne]
        exact hne
      rw [show (σ.shift.enter sector).openInodes = σ.nextPtr :: σ.openInodes from rfl,
        List.find?_cons, hnew]
      dsimp only
      rw [List.find?_congr fun q hq => ?_]
      · exact h.found
      · rw [FsState.isAt, FsState.isAt, hother q hq]
    · rw [hother p h.mem, hi]
    · rcases List.mem_cons.1 hq with rfl | hq
      · exact Nat.lt_succ_self _
      · exact Nat.lt_succ_of_lt (h.next q hq)

end RootOpen

/-! ### Its content -/

/-- The root directory is a file on the disk, and is not marked as a directory. -/
structure FlatRoot (disk : BlockSector → Sector) (t : Tree) (len : ℕ) : Prop where
  file : ∀ σ : FsState, σ.store = disk → FileAt σ t len
  sector : t.sector .root = rootDirSector
  plain : (disk rootDirSector).isDir = false

/-- The entries of a directory. -/
def entriesOf (bytes : ℕ → UInt8) (len : ℕ) : List (List UInt8) :=
  (List.range (len / 20)).map fun j => run bytes (20 * j) 20

/-- The entry in use with a name. -/
def findEntry (entries : List (List UInt8)) (name : List UInt8) : Option (List UInt8) :=
  entries.find? fun e => entryInUse e && entryName e == name

section FlatRoot

variable {disk : BlockSector → Sector} {p : InodePtr} {n len : ℕ} {t : Tree} {σ : FsState}

/-- The first entry, and those after it. -/
theorem drop_entriesOf {bytes : ℕ → UInt8} {k : ℕ} (hk : 20 * (k + 1) ≤ len) :
    (entriesOf bytes len).drop k = run bytes (20 * k) 20 :: (entriesOf bytes len).drop (k + 1) := by
  unfold entriesOf
  have hlt : k < ((List.range (len / 20)).map fun j => run bytes (20 * j) 20).length := by
    rw [List.length_map, List.length_range]
    omega
  rw [List.drop_eq_getElem_cons hlt, List.getElem_map, List.getElem_range]

theorem drop_entriesOf_end {bytes : ℕ → UInt8} {k : ℕ} (hk : len < 20 * (k + 1)) :
    (entriesOf bytes len).drop k = [] := by
  refine List.drop_eq_nil_of_le ?_
  rw [entriesOf, List.length_map, List.length_range]
  omega

theorem FileAt.len_lt (hfile : FileAt σ t len) : len < 20 * maxEntries := by
  have hlen := hfile.len_le
  have hcapacity := hfile.capacity
  have hcap : capacity = 16524 := rfl
  have hmax : maxEntries = 134217728 := rfl
  omega

/-- Bytes of an open directory. -/
theorem FileAt.readEntry_returns (hfile : FileAt σ t len) {inode : Inode}
    (hinode : σ.inodes p = some inode) (hsector : inode.sector = t.sector .root) (ofs : ℕ) :
    Returns (inodeReadAt p 20 ofs) σ fun bytes σ' =>
      σ' = σ ∧ bytes = run (t.bytes σ) ofs (min 20 (len - ofs)) := by
  unfold inodeReadAt
  rw [returns_bind_of_run (run_getInode hinode), hsector]
  exact readLoop_returns hfile 20 ofs

/-- The root is not a directory to `is_dir`. -/
theorem FlatRoot.isDirAt_returns (hdisk : FlatRoot disk t len) (h : RootOpen disk p n σ) :
    Returns (isDirAt p) σ fun kind σ' => kind = false ∧ σ' = σ := by
  obtain ⟨inode, hinode, hsector, -⟩ := h.inode
  unfold isDirAt isDir readSector
  rw [returns_bind_of_run (run_getInode hinode), bind_assoc, returns_get_bind, pure_bind,
    hsector, h.store]
  exact returns_pure.2 ⟨hdisk.plain, rfl⟩

/-- The scan of a directory finds the first entry of the name. -/
theorem FileAt.lookupFrom_returns (hfile : FileAt σ t len) {inode : Inode}
    (hinode : σ.inodes p = some inode) (hsector : inode.sector = t.sector .root)
    (name : List UInt8) {turns k : ℕ} (hk : 20 * k ≤ len) (hturns : len < 20 * (k + turns)) :
    Returns (lookupFrom p name turns (20 * k)) σ fun r σ' =>
      σ' = σ ∧ r.map Prod.fst = findEntry ((entriesOf (t.bytes σ) len).drop k) name := by
  induction turns generalizing k with
  | zero => exact absurd hk (by omega)
  | succ turns ih =>
    unfold lookupFrom
    refine (hfile.readEntry_returns hinode hsector (20 * k)).seq fun e σ₁ h₁ => ?_
    obtain ⟨rfl, rfl⟩ := h₁
    rw [length_run]
    by_cases hin : 20 * (k + 1) ≤ len
    · have hfull : min 20 (len - 20 * k) = 20 := by omega
      rw [if_pos hfull, hfull, drop_entriesOf hin, findEntry, List.find?_cons]
      by_cases hmatch : entryInUse (run (t.bytes σ₁) (20 * k) 20) = true ∧
          entryName (run (t.bytes σ₁) (20 * k) 20) = name
      · rw [if_pos hmatch, hmatch.1, hmatch.2, beq_self_eq_true]
        exact returns_pure.2 ⟨rfl, rfl⟩
      · have hskip : (entryInUse (run (t.bytes σ₁) (20 * k) 20) &&
            entryName (run (t.bytes σ₁) (20 * k) 20) == name) = false := by
          rw [← Bool.not_eq_true, Bool.and_eq_true, beq_iff_eq]
          exact hmatch
        rw [if_neg hmatch, hskip]
        exact ih hin (by omega)
    · rw [if_neg (by omega), drop_entriesOf_end (by omega)]
      exact returns_pure.2 ⟨rfl, rfl⟩

/-- **`lookup`** finds the first entry in use with the name. -/
theorem FileAt.lookup_returns (hfile : FileAt σ t len) {inode : Inode}
    (hinode : σ.inodes p = some inode) (hsector : inode.sector = t.sector .root)
    (name : List UInt8) :
    Returns (lookup p name) σ fun r σ' =>
      σ' = σ ∧ r.map Prod.fst = findEntry (entriesOf (t.bytes σ) len) name := by
  have hlen := hfile.len_lt
  exact hfile.lookupFrom_returns hinode hsector name (k := 0) (Nat.zero_le _) (by omega)

theorem FlatRoot.lookup_returns (hdisk : FlatRoot disk t len) (h : RootOpen disk p n σ)
    (name : List UInt8) :
    Returns (lookup p name) σ fun r σ' =>
      σ' = σ ∧ r.map Prod.fst = findEntry (entriesOf (t.bytes σ) len) name := by
  obtain ⟨inode, hinode, hsector, -⟩ := h.inode
  exact (hdisk.file σ h.store).lookup_returns hinode (hsector.trans hdisk.sector.symm) name

end FlatRoot

/-! ### Open directories -/

/-- Directories open on the root, and `k` more handles on its inode. -/
structure DirsOpen (disk : BlockSector → Sector) (p : InodePtr) (ds : List DirPtr) (k : ℕ)
    (D : DirState) : Prop where
  root : RootOpen disk p (ds.length + k) D.fs
  open' : ∀ d ∈ ds, ∃ dir, D.dirs d = some dir ∧ dir.inode = p ∧ 0 ≤ dir.pos
  nodup : ds.Nodup
  next : ∀ d ∈ ds, d < D.nextDir

/-- After `n` requests for memory. -/
structure DirState.Later (n : ℕ) (D D' : DirState) : Prop where
  workDir : D'.workDir = D.workDir
  junk : D'.junk = D.junk
  fs : D.fs.Later n D'.fs

theorem DirState.Later.trans {D D₁ D₂ : DirState} {m n : ℕ} (h : D.Later n D₁)
    (h₁ : D₁.Later m D₂) : D.Later (n + m) D₂ :=
  ⟨h₁.workDir.trans h.workDir, h₁.junk.trans h.junk, h.fs.trans h₁.fs⟩

theorem DirState.later_over {D : DirState} {σ : FsState} {n : ℕ} (h : D.fs.Later n σ) :
    D.Later n (D.over σ) :=
  ⟨rfl, rfl, h⟩

namespace DirsOpen

variable {disk : BlockSector → Sector} {p : InodePtr} {ds : List DirPtr} {k : ℕ} {D : DirState}
  {d : DirPtr} {r : Option DirPtr}

/-- The same directories over another state of the file system. -/
theorem beneath (h : DirsOpen disk p ds k D) {m : ℕ} {σ : FsState}
    (hσ : RootOpen disk p (ds.length + m) σ) : DirsOpen disk p ds m (D.over σ) :=
  { h with root := hσ }

theorem forget (h : DirsOpen disk p ds (k + 1) D) : DirsOpen disk p ds k D :=
  { h with root := h.root.weaken }

theorem perm (h : DirsOpen disk p ds k D) {es : List DirPtr} (hperm : ds.Perm es) :
    DirsOpen disk p es k D where
  root := hperm.length_eq ▸ h.root
  open' := fun d hd => h.open' d (hperm.mem_iff.2 hd)
  nodup := hperm.nodup_iff.1 h.nodup
  next := fun d hd => h.next d (hperm.mem_iff.2 hd)

/-- A directory that is not closed is forgotten. -/
theorem drop (h : DirsOpen disk p (d :: ds) k D) : DirsOpen disk p ds (k + 1) D where
  root := by
    have hroot := h.root
    rwa [List.length_cons, Nat.add_assoc, Nat.add_comm 1] at hroot
  open' := fun e he => h.open' e (List.mem_cons_of_mem d he)
  nodup := (List.nodup_cons.1 h.nodup).2
  next := fun e he => h.next e (List.mem_cons_of_mem d he)

theorem lose (h : DirsOpen disk p (r.toList ++ ds) k D) : DirsOpen disk p ds k D := by
  cases r with
  | none => exact h
  | some d => exact h.drop.forget

/-- Another buffer was left uninitialised. -/
theorem uninit_returns (h : DirsOpen disk p ds k D) (n : ℕ) :
    Returns (uninit n) D fun buffer D' => buffer = (List.range n).map (D.junk 0) ∧
      D'.workDir = D.workDir ∧ D'.fs = D.fs ∧ DirsOpen disk p ds k D' := by
  unfold uninit
  rw [returns_get_bind, returns_set_bind, returns_pure]
  exact ⟨rfl, rfl, rfl, ⟨h.root, h.open', h.nodup, h.next⟩⟩

/-- A request for memory. -/
theorem alloc_returns (h : DirsOpen disk p ds k D) :
    Returns (onInodes alloc) D fun ok D' =>
      ok = D.fs.memory 0 ∧ DirsOpen disk p ds k D' ∧ D.Later 1 D' :=
  onInodes_returns (h.root.alloc_returns.mono fun _ _ hσ =>
    ⟨hσ.1, h.beneath hσ.2.1, DirState.later_over hσ.2.2⟩)

/-- `inode_close` of a handle on the root, with a directory left. -/
theorem inodeClose_returns (h : DirsOpen disk p ds (k + 1) D) (hds : ds ≠ []) :
    Returns (onInodes (inodeClose p)) D fun _ D' => DirsOpen disk p ds k D' ∧ D.Later 0 D' := by
  have hpos : 0 < ds.length := List.length_pos_iff.2 hds
  exact onInodes_returns ((h.root.close_returns (n := ds.length + k) (by omega)).mono
    fun _ σ hσ => ⟨h.beneath hσ.1, DirState.later_over hσ.2⟩)

/-- **`dir_open`** of a handle on the root, with a directory left if it fails. -/
theorem dirOpen_returns (h : DirsOpen disk p ds (k + 1) D)
    (hds : D.fs.memory 0 = false → ds ≠ []) :
    Returns (dirOpen (some p)) D fun r D' =>
      r.isSome = D.fs.memory 0 ∧ DirsOpen disk p (r.toList ++ ds) k D' ∧ D.Later 1 D' := by
  unfold dirOpen
  refine h.alloc_returns.seq fun ok D₁ h₁ => ?_
  obtain ⟨rfl, h₁, hlater⟩ := h₁
  dsimp only
  cases hmem : D.fs.memory 0 with
  | false =>
    rw [if_neg Bool.false_ne_true]
    refine (h₁.inodeClose_returns (hds hmem)).seq fun _ D₂ h₂ => ?_
    exact returns_pure.2 ⟨rfl, h₂.1, hlater.trans h₂.2⟩
  | true =>
    rw [if_pos rfl, returns_get_bind, returns_set_bind, returns_pure]
    refine ⟨rfl, ⟨?_, fun e he => ?_, ?_, fun e he => ?_⟩, ⟨hlater.workDir, hlater.junk, hlater.fs⟩⟩
    · rw [Option.toList_some, List.singleton_append, List.length_cons, Nat.add_assoc,
        Nat.add_comm 1]
      exact h₁.root
    · rcases List.mem_cons.1 he with rfl | he
      · exact ⟨⟨p, 0, 0⟩, Function.update_self .., rfl, Int.le_refl 0⟩
      · obtain ⟨dir, hdir, hrest⟩ := h₁.open' e he
        refine ⟨dir, ?_, hrest⟩
        exact (Function.update_of_ne (Nat.ne_of_lt (h₁.next e he)) ..).trans hdir
    · exact List.nodup_cons.2 ⟨fun hmem => Nat.lt_irrefl _ (h₁.next _ hmem), h₁.nodup⟩
    · rcases List.mem_cons.1 he with rfl | he
      · exact Nat.lt_succ_self _
      · exact Nat.lt_succ_of_lt (h₁.next e he)

/-- **`dir_open_root`**. -/
theorem dirOpenRoot_returns (h : DirsOpen disk p ds k D) (hds : ds ≠ []) :
    Returns dirOpenRoot D fun r D' =>
      r.isSome = D.fs.memory 0 ∧ DirsOpen disk p (r.toList ++ ds) k D' ∧ D.Later 1 D' := by
  refine onInodes_seq h.root.openRoot_returns fun inode σ h₁ => ?_
  obtain ⟨rfl, hσ, hlater⟩ := h₁
  refine ((h.beneath hσ).dirOpen_returns fun _ => hds).mono fun r D' h₂ => ?_
  have hmem := hlater.memory 0
  rw [Nat.zero_add] at hmem
  refine ⟨h₂.1.trans hmem, h₂.2.1, ?_⟩
  have htrans := (DirState.later_over hlater).trans h₂.2.2
  rwa [Nat.zero_add] at htrans

/-- **`dir_reopen`** of one of the directories. -/
theorem dirReopen_returns (h : DirsOpen disk p ds k D) (hd : d ∈ ds) :
    Returns (dirReopen d) D fun r D' =>
      r.isSome = D.fs.memory 0 ∧ DirsOpen disk p (r.toList ++ ds) k D' ∧ D.Later 1 D' := by
  obtain ⟨dir, hdir, rfl, -⟩ := h.open' d hd
  refine Returns.bind (getDir_returns hdir ?_)
  refine onInodes_seq h.root.reopen_returns fun _ σ h₁ => ?_
  refine ((h.beneath h₁.1).dirOpen_returns fun _ => List.ne_nil_of_mem hd).mono fun r D' h₂ => ?_
  have hmem := h₁.2.memory 0
  rw [Nat.zero_add] at hmem
  refine ⟨h₂.1.trans hmem, h₂.2.1, ?_⟩
  have htrans := (DirState.later_over h₁.2).trans h₂.2.2
  rwa [Nat.zero_add] at htrans

/-- **`dir_close`** of a directory that is not the last one. -/
theorem dirClose_returns (h : DirsOpen disk p (r.toList ++ ds) k D) (hds : ds ≠ []) :
    Returns (dirClose r) D fun _ D' => DirsOpen disk p ds k D' ∧ D.Later 0 D' := by
  cases r with
  | none =>
    refine returns_pure.2 ⟨h, rfl, rfl, fun j => by rw [Nat.zero_add], fun _ => rfl⟩
  | some d =>
    obtain ⟨dir, hdir, rfl, -⟩ := h.open' d List.mem_cons_self
    have hd : d ∉ ds := (List.nodup_cons.1 h.nodup).1
    have hpos : 0 < ds.length := List.length_pos_iff.2 hds
    have hroot := h.root
    rw [Option.toList_some, List.singleton_append, List.length_cons, Nat.add_right_comm] at hroot
    refine Returns.bind (getDir_returns hdir ?_)
    refine onInodes_seq (hroot.close_returns (by omega)) fun _ σ hσ => ?_
    refine returns_modify.2 ⟨⟨hσ.1, fun e he => ?_, (List.nodup_cons.1 h.nodup).2, fun e he => ?_⟩,
      ⟨rfl, rfl, hσ.2⟩⟩
    · obtain ⟨dir', hdir', hrest⟩ := h.open' e (List.mem_cons_of_mem d he)
      have hne : e ≠ d := fun hed => hd (hed ▸ he)
      exact ⟨dir', (Function.update_of_ne hne ..).trans hdir', hrest⟩
    · exact h.next e (List.mem_cons_of_mem d he)

/-- **`dir_lookup`** in one of the directories. -/
theorem dirLookup_returns {t : Tree} {len : ℕ} (hdisk : FlatRoot disk t len)
    (h : DirsOpen disk p ds k D) (hd : d ∈ ds) (name : List UInt8) :
    Returns (dirLookup d name) D fun r D' =>
      (r.isSome = (findEntry (entriesOf (t.bytes D.fs) len) name).any fun e =>
        D.fs.isOpen (entrySector e) || D.fs.memory 0) ∧
      DirsOpen disk p ds k D' ∧ D'.workDir = D.workDir := by
  obtain ⟨dir, hdir, rfl, -⟩ := h.open' d hd
  refine Returns.bind (getDir_returns hdir ?_)
  refine onInodes_seq (hdisk.lookup_returns h.root name) fun found σ h₁ => ?_
  obtain ⟨rfl, hfound⟩ := h₁
  rw [← hfound]
  cases found with
  | none => exact returns_pure.2 ⟨rfl, h, rfl⟩
  | some entry =>
    refine onInodes_returns ((h.root.open_returns (entrySector entry.1)).mono fun r σ hr => ?_)
    exact ⟨hr.1, h.beneath hr.2, rfl⟩

/-- **`dir_readdir`** of one of the directories. -/
theorem readdirFrom_returns {t : Tree} {len : ℕ} (hdisk : FlatRoot disk t len) {turns : ℕ}
    (h : DirsOpen disk p ds k D) {dir : Dir} (hdir : D.dirs d = some dir) (hd : d ∈ ds)
    (hpos : 0 < turns) (hturns : len < dir.pos.toNat + 20 * turns) :
    Returns (readdirFrom d turns) D fun _ D' =>
      DirsOpen disk p ds k D' ∧ D'.workDir = D.workDir := by
  induction turns generalizing D dir with
  | zero => exact absurd hpos (Nat.lt_irrefl 0)
  | succ turns ih =>
    obtain ⟨dir', hdir', rfl, hnonneg⟩ := h.open' d hd
    obtain rfl : dir' = dir := Option.some.inj (hdir'.symm.trans hdir)
    replace hnonneg : (0 : ℤ) ≤ dir'.pos := hnonneg
    refine Returns.bind (getDir_returns hdir ?_)
    obtain ⟨inode, hinode, hsector, -⟩ := h.root.inode
    have hread := (hdisk.file D.fs h.root.store).readEntry_returns hinode
      (hsector.trans hdisk.sector.symm) dir'.pos.toNat
    refine onInodes_seq hread fun e σ h₁ => ?_
    obtain ⟨rfl, rfl⟩ := h₁
    rw [length_run]
    by_cases hfull : min 20 (len - dir'.pos.toNat) = 20
    · rw [if_pos hfull]
      have hnext : (dir'.pos + 20).toNat = dir'.pos.toNat + 20 := by omega
      have h' : DirsOpen disk dir'.inode ds k { D with
          dirs := Function.update D.dirs d (some { dir' with pos := dir'.pos + 20 }) } := by
        refine ⟨h.root, fun e he => ?_, h.nodup, h.next⟩
        by_cases hed : e = d
        · exact hed ▸ ⟨_, Function.update_self .., rfl, Int.add_nonneg hnonneg (by decide)⟩
        · obtain ⟨dir₁, hdir₁, hrest⟩ := h.open' e he
          exact ⟨dir₁, (Function.update_of_ne hed ..).trans hdir₁, hrest⟩
      refine returns_modify_bind.2 ?_
      split_ifs with hentry
      · exact returns_pure.2 ⟨h', rfl⟩
      · exact ih h' (Function.update_self ..) (by omega) (by rw [hnext]; omega)
    · rw [if_neg hfull]
      exact returns_pure.2 ⟨h, rfl⟩

end DirsOpen

/-! ### Paths -/

namespace DirsOpen

variable {disk : BlockSector → Sector} {p : InodePtr} {ds : List DirPtr} {k : ℕ} {D : DirState}
  {d : DirPtr} {t : Tree} {len : ℕ}

/-- What `traverse_path` finds on a path and leaves. -/
def Found (disk : BlockSector → Sector) (p : InodePtr) (ds : List DirPtr) (k : ℕ)
    (path name : List UInt8) (r : Option (DirPtr × Option InodePtr × List UInt8))
    (D' : DirState) : Prop :=
  if onlyDots path then
    ∃ d name', r = some (d, some p, name') ∧
      cString name' = (if 46 ∈ path then [46] else cString name) ∧
      DirsOpen disk p (d :: ds) (k + 1) D'
  else r = none ∧ DirsOpen disk p ds k D'

/-- **The loop of `traverse_path`** passes over the parts `.` and fails at any other. -/
theorem traverseFrom_returns (hdisk : FlatRoot disk t len) (hds : ds ≠ []) {turns : ℕ}
    {path : List UInt8} (hpath : (0 : UInt8) ∉ path) (hturns : path.length < turns)
    (name : List UInt8) (h : DirsOpen disk p (d :: ds) (k + 1) D) :
    Returns (traverseFrom turns name path d (some p)) D fun r D' =>
      Found disk p ds k path name r D' ∧ D.Later 0 D' := by
  induction turns generalizing path name with
  | zero => exact absurd hturns (Nat.not_lt_zero _)
  | succ turns ih =>
    have hlater : D.Later 0 D := ⟨rfl, rfl, fun j => by rw [Nat.zero_add], fun _ => rfl⟩
    unfold traverseFrom
    rcases getNextPart_cases hpath name with ⟨hpart, hdots, hdot⟩ |
      ⟨name', rest, hpart, hname, hlt, hsuffix, hdots, hdot⟩ |
      ⟨name', rest, hpart, hname, hdots⟩
    · rw [hpart]
      refine returns_pure.2 ⟨?_, hlater⟩
      rw [Found, if_pos hdots]
      exact ⟨d, name, rfl, by rw [if_neg hdot], h⟩
    · rw [hpart]
      dsimp only
      rw [if_pos hname]
      refine (ih (fun hmem => hpath (hsuffix.subset hmem)) (by omega) name').mono
        fun r D' h₁ => ⟨?_, h₁.2⟩
      have hfound := h₁.1
      unfold Found at hfound ⊢
      rw [hdots] at hfound
      rw [if_pos hdot]
      rwa [hname, ite_self] at hfound
    · rw [hpart]
      dsimp only
      rw [if_neg hname]
      refine onInodes_seq (hdisk.isDirAt_returns h.root) fun kind σ h₁ => ?_
      obtain ⟨rfl, rfl⟩ := h₁
      rw [if_pos rfl]
      refine (h.inodeClose_returns (List.cons_ne_nil _ _)).seq fun _ D₁ h₁ => ?_
      refine (dirClose_returns (r := some d) h₁.1 hds).seq fun _ D₂ h₂ => ?_
      refine returns_pure.2 ⟨?_, h₁.2.trans h₂.2⟩
      rw [Found, if_neg (by rw [hdots]; exact Bool.false_ne_true)]
      exact ⟨rfl, h₂.1⟩

theorem startDir_returns (h : DirsOpen disk p ds k D) (hwork : D.workDir ∈ ds)
    (path : List UInt8) :
    Returns (startDir path) D fun r D' =>
      r.isSome = D.fs.memory 0 ∧ DirsOpen disk p (r.toList ++ ds) k D' ∧ D.Later 1 D' := by
  unfold startDir
  rw [returns_get_bind]
  split_ifs
  · exact h.dirOpenRoot_returns (List.ne_nil_of_mem hwork)
  · exact h.dirReopen_returns hwork

/-- **`traverse_path`**, with memory for the directory in which it starts. -/
theorem traversePath_returns (hdisk : FlatRoot disk t len) (h : DirsOpen disk p ds k D)
    (hwork : D.workDir ∈ ds) {turns : ℕ} {path : List UInt8} (hpath : (0 : UInt8) ∉ path)
    (hturns : path.length < turns) (name : List UInt8) (hne : path ≠ [])
    (hmem : D.fs.memory 0 = true) :
    Returns (traversePath turns path name) D fun r D' =>
      Found disk p ds k path name r D' ∧ D.Later 1 D' := by
  unfold traversePath
  rw [if_neg hne]
  refine (h.startDir_returns hwork path).seq fun opened D₁ h₁ => ?_
  obtain ⟨hopened, h₁, hlater⟩ := h₁
  rw [hmem] at hopened
  obtain ⟨d, rfl⟩ := Option.isSome_iff_exists.1 hopened
  rw [Option.toList_some, List.singleton_append] at h₁
  obtain ⟨dir, hdir, rfl, -⟩ := h₁.open' d List.mem_cons_self
  obtain ⟨inode, hinode, -, -, hremoved⟩ := h₁.root.inode
  refine (show Returns (nonNull (some d)) D₁ fun d' D' => d' = d ∧ D' = D₁ from
    returns_pure.2 ⟨rfl, rfl⟩).seq fun d' D' hd' => ?_
  obtain ⟨rfl, rfl⟩ := hd'
  refine Returns.bind (getDir_returns hdir ?_)
  refine onInodes_seq (P := fun i σ => i = inode ∧ σ = D'.fs)
    ⟨_, _, run_getInode hinode, rfl, rfl⟩ fun i σ hi => ?_
  obtain ⟨rfl, rfl⟩ := hi
  rw [hremoved, if_neg Bool.false_ne_true]
  refine onInodes_seq h₁.root.reopen_returns fun _ σ h₂ => ?_
  refine (traverseFrom_returns hdisk (List.ne_nil_of_mem hwork) hpath hturns name
    (h₁.beneath h₂.1)).mono fun r D₃ h₃ => ⟨h₃.1, ?_⟩
  exact hlater.trans ((DirState.later_over h₂.2).trans h₃.2)

/-- **`traverse_path`** does not return without memory for the directory in which it
starts. -/
theorem traversePath_stuck (h : DirsOpen disk p ds k D) (hwork : D.workDir ∈ ds) (turns : ℕ)
    {path : List UInt8} (name : List UInt8) (hne : path ≠ []) (hmem : D.fs.memory 0 = false) :
    Ensures (traversePath turns path name) D fun _ _ => False := by
  unfold traversePath
  rw [if_neg hne]
  refine Ensures.seq (h.startDir_returns hwork path).ensures fun opened D₁ h₁ => ?_
  obtain rfl : opened = none :=
    Option.isNone_iff_eq_none.1 (Option.isSome_eq_false_iff.1 (h₁.1.trans hmem))
  exact Ensures.seq (ensures_halt (Q := fun _ _ => False)) fun _ _ hfalse => hfalse.elim

/-- A path without bytes leads nowhere. -/
theorem traversePath_nil (turns : ℕ) (name : List UInt8) :
    Returns (traversePath turns [] name) D fun r D' => r = none ∧ D' = D := by
  unfold traversePath
  rw [if_pos rfl]
  exact returns_pure.2 ⟨rfl, rfl⟩

/-- **`filesys_create`** makes nothing: a path leads to the root or nowhere. -/
theorem filesysCreate_returns (hdisk : FlatRoot disk t len) (h : DirsOpen disk p ds k D)
    (hwork : D.workDir ∈ ds) {turns : ℕ} {path : List UInt8} (hpath : (0 : UInt8) ∉ path)
    (hturns : path.length < turns) (initialSize : Off)
    (hmem : path = [] ∨ D.fs.memory 1 = true) :
    Returns (filesysCreate turns path initialSize) D fun _ D' =>
      DirsOpen disk p ds k D' ∧ D'.workDir = D.workDir := by
  have hds : ds ≠ [] := List.ne_nil_of_mem hwork
  unfold filesysCreate
  refine (h.dirOpenRoot_returns hds).seq fun start D₁ h₁ => ?_
  obtain ⟨-, h₁, hlater⟩ := h₁
  refine (h₁.uninit_returns (nameMax + 1)).seq fun name D₂ h₂ => ?_
  obtain ⟨-, hwork₂, hfs₂, h₂⟩ := h₂
  have hworkDir : D₂.workDir = D.workDir := hwork₂.trans hlater.workDir
  -- `dir_close` of the root that was opened first
  have hclose : ∀ {D' : DirState}, DirsOpen disk p (start.toList ++ ds) k D' →
      D'.workDir = D.workDir → Returns (do dirClose start; return false : DirKernel Bool) D'
        fun _ D' => DirsOpen disk p ds k D' ∧ D'.workDir = D.workDir := fun h' hw =>
    (dirClose_returns h' hds).seq fun _ _ h'' => returns_pure.2 ⟨h''.1, h''.2.workDir.trans hw⟩
  by_cases hne : path = []
  · subst hne
    refine (traversePath_nil turns name).seq fun found D₃ h₃ => ?_
    obtain ⟨rfl, rfl⟩ := h₃
    exact hclose h₂ hworkDir
  have hmem₂ : D₂.fs.memory 0 = true := by
    rw [hfs₂, hlater.fs.memory]
    exact hmem.resolve_left hne
  have hwork' : D₂.workDir ∈ start.toList ++ ds :=
    List.mem_append.2 (.inr (hworkDir.symm ▸ hwork))
  refine (traversePath_returns hdisk h₂ hwork' hpath hturns name hne hmem₂).seq
    fun found D₃ h₃ => ?_
  obtain ⟨hfound, hlater₃⟩ := h₃
  have hworkDir₃ := hlater₃.workDir.trans hworkDir
  unfold Found at hfound
  by_cases hdots : onlyDots path = true
  · rw [if_pos hdots] at hfound
    obtain ⟨d, name', rfl, -, h₃⟩ := hfound
    dsimp only
    refine (h₃.inodeClose_returns (List.cons_ne_nil _ _)).seq fun _ D₄ h₄ => ?_
    refine (dirClose_returns (r := some d) h₄.1 (List.ne_nil_of_mem hwork')).seq fun _ D₅ h₅ => ?_
    refine returns_pure.2 ⟨h₅.1.lose, ?_⟩
    exact h₅.2.workDir.trans (h₄.2.workDir.trans hworkDir₃)
  · rw [if_neg hdots] at hfound
    obtain ⟨rfl, h₃⟩ := hfound
    exact hclose h₃ hworkDir₃

/-- **`filesys_create`** does not return without memory for the directory in which
`traverse_path` starts. -/
theorem filesysCreate_stuck (h : DirsOpen disk p ds k D) (hwork : D.workDir ∈ ds) (turns : ℕ)
    {path : List UInt8} (initialSize : Off) (hne : path ≠ []) (hmem : D.fs.memory 1 = false) :
    Ensures (filesysCreate turns path initialSize) D fun _ _ => False := by
  unfold filesysCreate
  refine Ensures.seq (h.dirOpenRoot_returns (List.ne_nil_of_mem hwork)).ensures
    fun start D₁ h₁ => ?_
  obtain ⟨-, h₁, hlater⟩ := h₁
  refine Ensures.seq (h₁.uninit_returns (nameMax + 1)).ensures fun name D₂ h₂ => ?_
  obtain ⟨-, hwork₂, hfs₂, h₂⟩ := h₂
  have hworkDir : D₂.workDir = D.workDir := hwork₂.trans hlater.workDir
  refine Ensures.seq (h₂.traversePath_stuck ?_ turns name hne ?_) fun _ _ hfalse => hfalse.elim
  · exact List.mem_append.2 (.inr (hworkDir.symm ▸ hwork))
  · rw [hfs₂, hlater.fs.memory]
    exact hmem

end DirsOpen

end Filesys
end CS162

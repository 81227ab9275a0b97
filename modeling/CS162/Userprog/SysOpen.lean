/-
# What sys_open leaves behind

`projects1-3/src/userprog/syscall.c`, lines 219-280: `sys_open`, once more with the page that
`copy_in_string` delivered and the block of `malloc (sizeof *fd)` in the state, which the return
statements free or do not.  Without them it is the `sysOpen` of before (`openPath_erase`).

Each way through the `else` ends without the block (`openFrom_allows`), so the call is right for no
path but "/" (`openPath_right_iff`).
-/

import CS162.Filesys.ChdirWalk
import CS162.Userprog.FileCalls

namespace CS162
namespace Userprog

open CS162.Basis CS162.Filesys

/-- A process, with the pages of paths and the blocks of descriptors that are allocated. -/
structure Opening where
  process : Process
  pages : ℕ
  blocks : ℕ

abbrev OpenCall := Call Opening

/-- A call on the process. -/
def onProcess {α : Type} (x : ProcessCall α) : OpenCall α :=
  onPart Opening.process (fun O P => { O with process := P }) x

/-- A call of the file system. -/
def onKernel {α : Type} (x : DirKernel α) : OpenCall α := onProcess (onDirs x)

/-- `palloc_free_page (kfile)`. -/
def freePath : OpenCall Unit := modify fun O => { O with pages := O.pages - 1 }

/-- The part of `sys_open` after `traverse_path`. -/
def openNamed (startDir : DirPtr) (name : List UInt8) : OpenCall ℤ := do
  let currInode ← onKernel (dirLookup startDir (cString name))
  if currInode.isSome then
    freePath
    return -1
  else
    -- `is_dir (curr_inode)`
    let p ← onKernel (nonNull currInode)
    let kind ← onKernel (onInodes (isDirAt p))
    if kind then
      let directory ← onKernel (dirOpen (some p))
      if directory.isNone then
        freePath
        return -1
      else
        let handle ← onProcess (installFd (.directory directory))
        freePath
        return handle
    else
      let file ← onKernel (onFiles (fileOpen (some p)))
      match file with
      | none =>
        -- `palloc_free_page (kpage)`
        freePath
        return -1
      | some f =>
        let handle ← onProcess (installFd (.file f))
        freePath
        return handle

/-- The `else` of `sys_open`. -/
def openFrom (turns : ℕ) (path : List UInt8) : OpenCall ℤ := do
  let P ← onProcess get
  let startDir ← onKernel (dirReopen P.kernel.workDir)
  let name ← onKernel (uninit (nameMax + 1))
  let found ← onKernel (traversePath turns path name)
  match found with
  | none =>
    onKernel (dirClose startDir)
    return -1
  | some (dir, _, name) => openNamed dir name

/-- The branch of `sys_open` for "/". -/
def openRoot : OpenCall ℤ := do
  let directory ← onKernel dirOpenRoot
  let handle ← onProcess (installFd (.directory directory))
  freePath
  return handle

/-- `sys_open`, with the path that `copy_in_string` has put on a page. -/
def openPath (turns : ℕ) (path : List UInt8) : OpenCall ℤ := do
  modify fun O => { O with pages := O.pages + 1 }
  let delivered ← onKernel (onInodes alloc)
  if delivered = false then
    freePath
    return -1
  else
    modify fun O => { O with blocks := O.blocks + 1 }
    if path = [47] then openRoot else openFrom turns path

/-! ### What the call is to do -/

/-- The sector of the working directory's inode. -/
def workSector (D : DirState) : Option BlockSector := do
  let dir ← D.dirs D.workDir
  let inode ← D.fs.inodes dir.inode
  return inode.sector

/-- A path names the object at a sector: the directory it starts at, or the entry of its last part
in the directory that the parts before lead to. -/
structure NamesObject (D : DirState) (path : List UInt8) (t : BlockSector) : Prop where
  good : GoodPath path
  ne_nil : path ≠ []
  found : ∃ s, (if path.head? = some 47 then some rootDirSector else workSector D) = some s ∧
    (partsOf path = [] ∧ t = s ∨ ∃ ws w d, partsOf path = ws ++ [w] ∧
      Denotes D.fs.store s ws d ∧ entryAt D.fs.store d w = some (some t))

/-- What was opened is the object at the sector, as a directory exactly if it is one. -/
def BoundTo (disk : BlockSector → Sector) (D : DirState) (t : BlockSector) : Opened → Prop
  | .directory none => False
  | .directory (some d) => IsDirectory disk t ∧ ∃ dir inode, D.dirs d = some dir ∧
      D.fs.inodes dir.inode = some inode ∧ inode.sector = t
  | .file f => ¬IsDirectory disk t ∧ ∃ file inode, D.files.files f = some file ∧
      D.fs.inodes file.inode = some inode ∧ inode.sector = t

/-- No descriptor has the next handle. -/
def Process.Fresh (P : Process) : Prop := ∀ fd ∈ P.fds, fd.handle ≠ P.nextHandle

/-- The call has opened the object that the path names. -/
structure OpensObject (O : Opening) (path : List UInt8) (r : Except Stop ℤ) (O' : Opening) :
    Prop where
  returns : r = .ok O.process.nextHandle
  fresh : O.process.Fresh
  bound : ∃ t opened, NamesObject O.process.kernel path t ∧
    O'.process.fds = ⟨O.process.nextHandle, opened⟩ :: O.process.fds ∧
    BoundTo O.process.kernel.fs.store O'.process.kernel t opened
  pages : O'.pages = O.pages
  blocks : O'.blocks = O.blocks + 1

/-- The call has returned -1 and left nothing behind. -/
structure RefusesPath (O : Opening) (r : Except Stop ℤ) (O' : Opening) : Prop where
  returns : r = .ok (-1)
  fds : O'.process.fds = O.process.fds
  inodes : O'.process.kernel.fs.inodes = O.process.kernel.fs.inodes
  openInodes : O'.process.kernel.fs.openInodes = O.process.kernel.fs.openInodes
  pages : O'.pages = O.pages
  blocks : O'.blocks = O.blocks

/-- The call opens what the path names or leaves nothing behind, and does not fail where the path
names an object and there is memory. -/
def OpensRight (turns : ℕ) (path : List UInt8) (O : Opening) : Prop :=
  Ends (openPath turns path) O fun r O' => OpensObject O path r O' ∨
    RefusesPath O r O' ∧
      ¬((∃ t, NamesObject O.process.kernel path t) ∧ O.process.kernel.fs.Memory)

/-- There is memory for the descriptor's directory and, if the root is not open, its inode. -/
def RootMeets (σ : FsState) : Prop :=
  σ.memory 1 = true ∧ (σ.isOpen rootDirSector = true ∨ σ.memory 2 = true)

/-! ### Without the page and the block -/

section Erase

variable {α β : Type}

/-- On the process, one call does what the other does. -/
def Erases (x : OpenCall α) (y : ProcessCall α) : Prop :=
  ∀ O, ((ExceptT.run x).run O).map (fun r => (r.1, r.2.process)) = (ExceptT.run y).run O.process

theorem erases_pure (a : α) : Erases (pure a) (pure a) := fun _ => rfl

theorem erases_onProcess (y : ProcessCall α) : Erases (onProcess y) y := by
  intro O
  show (((ExceptT.run y).run O.process).map _).map _ = _
  rw [Option.map_map]
  exact Option.map_id'

theorem Erases.bind {x : OpenCall α} {y : ProcessCall α} {f : α → OpenCall β}
    {g : α → ProcessCall β} (h : Erases x y) (hf : ∀ a, Erases (f a) (g a)) :
    Erases (x >>= f) (y >>= g) := by
  intro O
  have hx := h O
  show ((((ExceptT.run x).run O).bind _).map _) = ((ExceptT.run y).run O.process).bind _
  rw [← hx]
  cases hrun : (ExceptT.run x).run O with
  | none => rfl
  | some r =>
    obtain ⟨r, O'⟩ := r
    cases r with
    | ok a => exact hf a O'
    | error e => rfl

/-- A change of the counts alone. -/
theorem Erases.skip {g : Opening → Opening} {x : OpenCall α} {y : ProcessCall α}
    (hg : ∀ O, (g O).process = O.process) (h : Erases x y) :
    Erases (modify g >>= fun _ => x) y := by
  intro O
  have hx := h (g O)
  rw [hg] at hx
  exact hx

/-- A return behind which the page is freed. -/
theorem erases_freePath (y : ProcessCall α) :
    Erases (onProcess y >>= fun a => freePath >>= fun _ => pure a) y := by
  have h := (erases_onProcess y).bind fun a =>
    (erases_pure a).skip (g := fun O => { O with pages := O.pages - 1 }) fun _ => rfl
  rwa [bind_pure] at h

/-- Opening a name, seen from the process. -/
theorem openNamed_erase (startDir : DirPtr) (name : List UInt8) :
    Erases (openNamed startDir name) (openFound startDir name) := by
  refine (erases_onProcess _).bind fun currInode => ?_
  split_ifs
  · exact (erases_pure _).skip fun _ => rfl
  refine (erases_onProcess _).bind fun p => (erases_onProcess _).bind fun kind => ?_
  split_ifs
  · refine (erases_onProcess _).bind fun directory => ?_
    split_ifs
    · exact (erases_pure _).skip fun _ => rfl
    · exact erases_freePath _
  · refine (erases_onProcess _).bind fun file => ?_
    cases file with
    | none => exact (erases_pure _).skip fun _ => rfl
    | some f => exact erases_freePath _

/-- **The page and the block change nothing else.** -/
theorem openPath_erase (turns : ℕ) (path : List UInt8) :
    Erases (openPath turns path) (sysOpen turns path) := by
  refine Erases.skip (fun _ => rfl) ((erases_onProcess _).bind fun delivered => ?_)
  split_ifs
  · exact (erases_pure _).skip fun _ => rfl
  · exact Erases.skip (fun _ => rfl) ((erases_onProcess _).bind fun directory => erases_freePath _)
  · refine Erases.skip (fun _ => rfl) ((erases_onProcess _).bind fun P => ?_)
    refine (erases_onProcess _).bind fun startDir => (erases_onProcess _).bind fun name =>
      (erases_onProcess _).bind fun found => ?_
    cases found with
    | none => exact (erases_onProcess _).bind fun _ => erases_pure _
    | some r => exact openNamed_erase r.1 _

end Erase

/-! ### The ways through the else -/

section Ways

variable {O : Opening} {path : List UInt8} {turns : ℕ} {α β : Type}

/-- A call of the file system leaves the descriptors, the page and the block alone. -/
structure Kept (O O' : Opening) : Prop where
  fds : O'.process.fds = O.process.fds
  nextHandle : O'.process.nextHandle = O.process.nextHandle
  pages : O'.pages = O.pages
  blocks : O'.blocks = O.blocks

theorem Kept.refl (O : Opening) : Kept O O := ⟨rfl, rfl, rfl, rfl⟩

theorem Kept.trans {O₁ O₂ : Opening} (h : Kept O O₁) (h₁ : Kept O₁ O₂) : Kept O O₂ :=
  ⟨h₁.fds.trans h.fds, h₁.nextHandle.trans h.nextHandle, h₁.pages.trans h.pages,
    h₁.blocks.trans h.blocks⟩

/-- A call of the file system, and what follows it. -/
theorem onKernel_allows {x : DirKernel α} {f : α → OpenCall β} {R : α → DirState → Prop}
    {Q : Except Stop β → Opening → Prop} (h : Ensures x O.process.kernel R)
    (hf : ∀ a D O', R a D → O'.process.kernel = D → Kept O O' → Allows (f a) O' Q) :
    Allows (onKernel x >>= f) O Q := by
  have hx : Allows (onKernel x) O fun r O' =>
      ∃ a, r = .ok a ∧ R a O'.process.kernel ∧ Kept O O' := by
    unfold onKernel onProcess onDirs
    refine Allows.onPart _ _ (allows_callOut fun a P hrun => ?_)
    obtain ⟨y, hy, hr⟩ := Option.map_eq_some_iff.1 hrun
    obtain ⟨rfl, rfl⟩ := Prod.mk.inj hr
    exact ⟨y.1, rfl, h y.1 y.2 hy, rfl, rfl, rfl, rfl⟩
  refine hx.seq (fun a O' hO' => ?_) fun e O' hO' => ?_
  · obtain ⟨b, hb, hR, hkept⟩ := hO'
    rw [Except.ok.inj hb]
    exact hf b _ O' hR rfl hkept
  · obtain ⟨b, hb, -⟩ := hO'
    cases hb

/-- A call of the file system that returns. -/
theorem onKernel_ends {x : DirKernel α} {f : α → OpenCall β} {R : α → DirState → Prop}
    {Q : Except Stop β → Opening → Prop} (h : Returns x O.process.kernel R)
    (hf : ∀ a D, R a D → Ends (f a) { O with process := { O.process with kernel := D } } Q) :
    Ends (onKernel x >>= f) O Q := by
  obtain ⟨a, D, hrun, hR⟩ := h
  have hx : Ends (onKernel x) O fun r O' =>
      r = .ok a ∧ O' = { O with process := { O.process with kernel := D } } := by
    unfold onKernel onProcess onDirs
    refine Ends.onPart _ _ (ends_callOut ⟨a, { O.process with kernel := D }, ?_, rfl, rfl⟩)
    show (x.run O.process.kernel).map _ = _
    rw [hrun]
    rfl
  refine hx.seq (fun b O' hO' => ?_) fun e O' hO' => ?_
  · rw [Except.ok.inj hO'.1, hO'.2]
    exact hf a D hR
  · cases hO'.1

/-- Whatever the call of the file system does. -/
theorem onKernel_any {x : DirKernel α} {f : α → OpenCall β} {Q : Except Stop β → Opening → Prop}
    (hf : ∀ a O', Kept O O' → Allows (f a) O' Q) : Allows (onKernel x >>= f) O Q :=
  onKernel_allows (R := fun _ _ => True) (fun _ _ _ => trivial) fun a _ O' _ _ hkept => hf a O' hkept

/-- The descriptors and the block are what they were. -/
def LosesBlock (O : Opening) (_ : Except Stop ℤ) (O' : Opening) : Prop :=
  O'.process.fds = O.process.fds ∧ O'.blocks = O.blocks

theorem Kept.losesBlock {O₁ : Opening} (h : Kept O O₁) {x : OpenCall ℤ}
    (hx : Allows x O₁ (LosesBlock O₁)) : Allows x O₁ (LosesBlock O) :=
  hx.mono fun _ _ hO' => ⟨hO'.1.trans h.fds, hO'.2.trans h.blocks⟩

theorem openNamed_allows (startDir : DirPtr) (name : List UInt8) :
    Allows (openNamed startDir name) O (LosesBlock O) := by
  refine onKernel_any fun currInode O₁ h₁ => ?_
  cases currInode with
  | some p => exact allows_pure ⟨h₁.fds, h₁.blocks⟩
  | none =>
    -- `is_dir` of a null pointer
    exact onKernel_allows (R := fun _ _ => False) ensures_halt fun _ _ _ hfalse => hfalse.elim

/-- **The `else` of `sys_open`** never puts the block into the list or frees it. -/
theorem openFrom_allows : Allows (openFrom turns path) O (LosesBlock O) := by
  refine Allows.seq (P := fun r O' => (∃ P, r = .ok P) ∧ O' = O) ?_ (fun P O' h => ?_)
    fun e O' h => ?_
  · exact Allows.onPart _ _ (allows_pure ⟨⟨_, rfl⟩, rfl⟩)
  · rw [h.2]
    refine onKernel_any fun startDir O₁ h₁ => onKernel_any fun name O₂ h₂ =>
      onKernel_any fun found O₃ h₃ => ?_
    have hkept := (h₁.trans h₂).trans h₃
    cases found with
    | none => exact onKernel_any fun _ O₄ h₄ =>
        allows_pure ⟨(hkept.trans h₄).fds, (hkept.trans h₄).blocks⟩
    | some r =>
      obtain ⟨dir, -, name⟩ := r
      exact hkept.losesBlock (openNamed_allows dir name)
  · obtain ⟨⟨P, hP⟩, -⟩ := h
    cases hP

end Ways

/-! ### The root -/

section Root

variable {D : DirState} {p : InodePtr} {O : Opening}

theorem dirOpen_returns (h : D.fs.memory 0 = true) :
    Returns (dirOpen (some p)) D fun r D' =>
      ∃ d, r = some d ∧ D'.dirs d = some ⟨p, 0, 0⟩ ∧ D'.fs.inodes = D.fs.inodes := by
  unfold dirOpen
  have hrequest : (onInodes alloc).run D = some (D.fs.memory 0, D.over D.fs.shift) := rfl
  rw [returns_bind_of_run hrequest, h]
  dsimp only
  rw [if_pos rfl, returns_get_bind, returns_set_bind, returns_pure]
  exact ⟨_, rfl, Function.update_self .., rfl⟩

theorem dirOpen_refused (h : D.fs.memory 0 = false) :
    Ensures (dirOpen (some p)) D fun r _ => r = none := by
  unfold dirOpen
  refine Ensures.seq (P := fun delivered _ => delivered = false) ?_ fun delivered D' hno => ?_
  · exact Returns.ensures ⟨_, D.over D.fs.shift, rfl, h⟩
  · rw [hno]
    dsimp only
    rw [if_neg Bool.false_ne_true]
    exact ensures_bind_pure fun _ => rfl

/-- Whether the root gets memory, from the next request on. -/
def RootMeetsNow (σ : FsState) : Prop :=
  σ.memory 0 = true ∧ (σ.isOpen rootDirSector = true ∨ σ.memory 1 = true)

/-- `inode_open` of the root, and the next request for memory. -/
theorem openRootInode_cases (D : DirState) :
    (∃ p σ' inode, (onInodes (inodeOpen rootDirSector)).run D = some (some p, D.over σ') ∧
      σ'.inodes p = some inode ∧ inode.sector = rootDirSector ∧
      (RootMeetsNow D.fs ↔ σ'.memory 0 = true)) ∨
    ∃ σ', (onInodes (inodeOpen rootDirSector)).run D = some (none, D.over σ') ∧
      ¬RootMeetsNow D.fs := by
  rcases inodeOpen_cases D.fs rootDirSector with ⟨p, hp, inode, hi, hsector, hrun⟩ | ⟨hnone, hrun⟩
  · have hopen : D.fs.isOpen rootDirSector = true := by
      refine List.any_eq_true.2 ⟨p, hp, ?_⟩
      unfold FsState.isAt
      rw [hi, Option.any_some, hsector]
      exact beq_self_eq_true _
    have hroot := run_onInodes (inodeOpen rootDirSector) D
    rw [hrun] at hroot
    refine .inl ⟨p, _, { inode with openCnt := inode.openCnt + 1 }, hroot, FsState.put_self ..,
      hsector, ?_⟩
    exact ⟨fun h => h.1, fun h => ⟨h, .inl hopen⟩⟩
  · have hclosed : D.fs.isOpen rootDirSector = false := by
      refine List.any_eq_false.2 fun p hp hat => ?_
      obtain ⟨inode, hi, hsector⟩ := (Option.any_eq_true _ _).1 hat
      refine hnone p hp inode.openCnt ?_
      rw [FsState.cell_of_inode hi, eq_of_beq hsector]
    have hmeets : RootMeetsNow D.fs ↔ D.fs.memory 0 = true ∧ D.fs.memory 1 = true := by
      unfold RootMeetsNow
      rw [hclosed]
      simp
    cases hmem : D.fs.memory 0 with
    | true =>
      rw [hmem, if_pos rfl] at hrun
      have hroot := run_onInodes (inodeOpen rootDirSector) D
      rw [hrun] at hroot
      refine .inl ⟨_, _, ⟨rootDirSector, 1, false, 0⟩, hroot, FsState.put_self .., rfl, ?_⟩
      exact hmeets.trans ⟨fun h => h.2, fun h => ⟨hmem, h⟩⟩
    | false =>
      rw [hmem, if_neg Bool.false_ne_true] at hrun
      have hroot := run_onInodes (inodeOpen rootDirSector) D
      rw [hrun] at hroot
      refine .inr ⟨_, hroot, fun h => ?_⟩
      rw [hmem] at hmeets
      exact Bool.false_ne_true (hmeets.1 h).1

theorem dirOpenRoot_returns (h : RootMeetsNow D.fs) :
    Returns dirOpenRoot D fun r D' => ∃ d dir inode, r = some d ∧ D'.dirs d = some dir ∧
      D'.fs.inodes dir.inode = some inode ∧ inode.sector = rootDirSector := by
  unfold dirOpenRoot
  obtain ⟨p, σ', inode, hrun, hi, hsector, hiff⟩ | ⟨σ', -, hno⟩ := openRootInode_cases D
  · rw [returns_bind_of_run hrun]
    refine (dirOpen_returns (D := D.over σ') (hiff.1 h)).mono fun r D' hr => ?_
    obtain ⟨d, hd, hdir, hinodes⟩ := hr
    exact ⟨d, _, inode, hd, hdir, by rw [hinodes]; exact hi, hsector⟩
  · exact absurd h hno

theorem dirOpenRoot_refused (h : ¬RootMeetsNow D.fs) :
    Ensures dirOpenRoot D fun r _ => r = none := by
  unfold dirOpenRoot
  obtain ⟨p, σ', inode, hrun, -, -, hiff⟩ | ⟨σ', hrun, -⟩ := openRootInode_cases D
  · refine Ensures.seq (P := fun r D' => r = some p ∧ D' = D.over σ')
      (Returns.ensures ⟨_, _, hrun, rfl, rfl⟩) fun r D' hr => ?_
    rw [hr.1, hr.2]
    exact dirOpen_refused (D := D.over σ') (Bool.eq_false_iff.2 fun hmem => h (hiff.2 hmem))
  · refine Ensures.seq (P := fun r D' => r = none ∧ D' = D.over σ')
      (Returns.ensures ⟨_, _, hrun, rfl, rfl⟩) fun r D' hr => ?_
    rw [hr.1]
    unfold dirOpen
    exact ensures_bind_pure fun _ => rfl

/-- The branch for "/" leaves a descriptor with what `dir_open` returned. -/
def RootOpened (O : Opening) (r : Except Stop ℤ) (O' : Opening) (d : Option DirPtr) : Prop :=
  r = .ok O.process.nextHandle ∧
    O'.process.fds = ⟨O.process.nextHandle, .directory d⟩ :: O.process.fds ∧
    O'.pages = O.pages - 1 ∧ O'.blocks = O.blocks

theorem openRoot_ends (h : RootMeetsNow O.process.kernel.fs) :
    Ends openRoot O fun r O' => ∃ d dir inode, RootOpened O r O' (some d) ∧
      O'.process.kernel.dirs d = some dir ∧ O'.process.kernel.fs.inodes dir.inode = some inode ∧
      inode.sector = rootDirSector := by
  unfold openRoot
  refine onKernel_ends (dirOpenRoot_returns h) fun r D hr => ?_
  obtain ⟨d, dir, inode, rfl, hdir, hi, hsector⟩ := hr
  exact ⟨_, _, rfl, d, dir, inode, ⟨rfl, rfl, rfl, rfl⟩, hdir, hi, hsector⟩

theorem openRoot_refused (h : ¬RootMeetsNow O.process.kernel.fs) :
    Allows openRoot O fun r O' => RootOpened O r O' none := by
  unfold openRoot
  refine onKernel_allows (dirOpenRoot_refused h) fun d D O₁ hd _ hkept => ?_
  rw [hd]
  have hinstall : Ends (onProcess (installFd (.directory none)) >>= fun handle =>
      freePath >>= fun _ => pure handle) O₁ fun r O' => RootOpened O₁ r O' none :=
    ⟨_, _, rfl, rfl, rfl, rfl, rfl⟩
  refine hinstall.allows.mono fun r O' hO' => ?_
  obtain ⟨hr, hfds, hpages, hblocks⟩ := hO'
  rw [hkept.nextHandle] at hr hfds
  rw [hkept.fds] at hfds
  exact ⟨hr, hfds, by rw [hpages, hkept.pages], hblocks.trans hkept.blocks⟩

end Root

/-! ### The call -/

section Call

variable {O : Opening} {path : List UInt8} {turns : ℕ}

/-- After the page and, if there is memory, the block have been taken. -/
def Opening.taken (O : Opening) (blocks : ℕ) : Opening where
  process := { O.process with kernel := O.process.kernel.over O.process.kernel.fs.shift }
  pages := O.pages + 1
  blocks := O.blocks + blocks

theorem openPath_refused (h : O.process.kernel.fs.memory 0 = false) :
    Ends (openPath turns path) O fun r O' => RefusesPath O r O' := by
  have hrun : (ExceptT.run (openPath turns path)).run O =
      (ExceptT.run (if O.process.kernel.fs.memory 0 = false then (do freePath; return -1) else do
        modify fun O => { O with blocks := O.blocks + 1 }
        if path = [47] then openRoot else openFrom turns path)).run (O.taken 0) := rfl
  rw [if_pos h] at hrun
  exact ⟨_, _, hrun.trans rfl, rfl, rfl, rfl, rfl, Nat.add_sub_cancel .., rfl⟩

theorem openPath_taken (h : O.process.kernel.fs.memory 0 = true) :
    (ExceptT.run (openPath turns path)).run O =
      (ExceptT.run (if path = [47] then openRoot else openFrom turns path)).run (O.taken 1) := by
  have hrun : (ExceptT.run (openPath turns path)).run O =
      (ExceptT.run (if O.process.kernel.fs.memory 0 = false then (do freePath; return -1) else do
        modify fun O => { O with blocks := O.blocks + 1 }
        if path = [47] then openRoot else openFrom turns path)).run (O.taken 0) := rfl
  rw [if_neg (by simp [h])] at hrun
  exact hrun

theorem namesObject_root (D : DirState) : NamesObject D [47] rootDirSector :=
  ⟨⟨by decide, by decide⟩, by decide, rootDirSector, rfl, .inl ⟨by decide, rfl⟩⟩

/-- A call that has put a descriptor into the list has not refused. -/
theorem RefusesPath.not_cons {r : Except Stop ℤ} {O' : Opening} (h : RefusesPath O r O')
    {fd : Descriptor} (hfds : O'.process.fds = fd :: O.process.fds) : False :=
  List.cons_ne_self fd _ (hfds.symm.trans h.fds)

/-- "/", with memory for the root. -/
theorem openPath_root (h : O.process.kernel.fs.memory 0 = true)
    (hroot : RootMeets O.process.kernel.fs) :
    OpensRight turns [47] O ↔ O.process.Fresh := by
  obtain ⟨r, O', hrun, d, dir, inode, ⟨hr, hfds, hpages, hblocks⟩, hdir, hi, hsector⟩ :=
    openRoot_ends (O := O.taken 1) hroot
  have hpath : (ExceptT.run (openPath turns [47])).run O = some (r, O') := by
    rw [openPath_taken h, if_pos rfl]
    exact hrun
  constructor
  · intro hright
    rcases Returns.of_run hright hpath with hopens | ⟨hrefuses, -⟩
    · exact hopens.fresh
    · exact (hrefuses.not_cons hfds).elim
  · intro hfresh
    refine ⟨r, O', hpath, .inl ⟨hr, hfresh, ⟨rootDirSector, _, namesObject_root _, hfds, ?_⟩, ?_,
      hblocks⟩⟩
    · exact ⟨.inl rfl, dir, inode, hdir, hi, hsector⟩
    · rw [hpages]
      exact Nat.add_sub_cancel ..

/-- "/", without memory for the root: the descriptor has a null pointer. -/
theorem openPath_root_refused (h : O.process.kernel.fs.memory 0 = true)
    (hroot : ¬RootMeets O.process.kernel.fs) : ¬OpensRight turns [47] O := by
  refine Allows.not_ends fun r O' hrun => ?_
  rw [openPath_taken h, if_pos rfl] at hrun
  obtain ⟨-, hfds, -⟩ := openRoot_refused (O := O.taken 1) hroot r O' hrun
  rintro (hopens | ⟨hrefuses, -⟩)
  · obtain ⟨t, opened, -, hopened, hbound⟩ := hopens.bound
    obtain ⟨hfd, -⟩ := List.cons.inj (hfds.symm.trans hopened)
    have hnull : Opened.directory none = opened := congrArg Descriptor.opened hfd
    rw [← hnull] at hbound
    exact hbound
  · exact hrefuses.not_cons hfds

/-- Another path: the block is lost. -/
theorem openPath_else (h : O.process.kernel.fs.memory 0 = true) (hpath : path ≠ [47]) :
    ¬OpensRight turns path O := by
  refine Allows.not_ends fun r O' hrun => ?_
  rw [openPath_taken h, if_neg hpath] at hrun
  obtain ⟨hfds, hblocks⟩ := openFrom_allows r O' hrun
  rintro (hopens | ⟨hrefuses, -⟩)
  · obtain ⟨t, opened, -, hopened, -⟩ := hopens.bound
    exact List.cons_ne_self _ _ (hopened.symm.trans hfds)
  · have htaken : O.blocks + 1 = O.blocks := hblocks.symm.trans hrefuses.blocks
    omega

/-- **`sys_open`** is right exactly if there is no memory for the descriptor, or the path is "/" and
there is memory for the root. -/
theorem openPath_right_iff :
    OpensRight turns path O ↔ O.process.kernel.fs.memory 0 = false ∨
      path = [47] ∧ RootMeets O.process.kernel.fs ∧ O.process.Fresh := by
  cases hmem : O.process.kernel.fs.memory 0 with
  | false =>
    refine ⟨fun _ => .inl rfl, fun _ => (openPath_refused hmem).mono fun r O' h => .inr ⟨h, ?_⟩⟩
    rintro ⟨-, hall⟩
    exact Bool.false_ne_true (hmem.symm.trans (hall 0))
  | true =>
    constructor
    · intro hright
      refine .inr ?_
      by_cases hpath : path = [47]
      · subst hpath
        by_cases hroot : RootMeets O.process.kernel.fs
        · exact ⟨rfl, hroot, (openPath_root hmem hroot).1 hright⟩
        · exact absurd hright (openPath_root_refused hmem hroot)
      · exact absurd hright (openPath_else hmem hpath)
    · rintro (hno | ⟨rfl, hroot, hfresh⟩)
      · cases hno
      · exact (openPath_root hmem hroot).2 hfresh

end Call

/-- A process in the root directory, which has a plain file `a`. -/
def plainProcess : Process where
  kernel := inRoot (fresh 1024 plainDisk)
  fds := []
  nextHandle := 2
  user := fun _ => 0
  mapped := fun _ => false
  keys := fun _ => 0

/-- It opens `a`. -/
theorem not_opensRight : ¬∀ turns path O, OpensRight turns path O := fun hall =>
  openPath_else (O := ⟨plainProcess, 0, 0⟩) rfl (by decide) (hall 2 [97] _)

end Userprog
end CS162

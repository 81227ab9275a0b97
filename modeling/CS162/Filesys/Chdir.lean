/-
# Changing the working directory

`projects1-3/src/filesys/directory.c`, lines 203-240: `system_chdir`.  It is given the
process's `work_dir` and returns what it leaves there; a null pointer is `none`.

`Denotes` is what a path means: the parts of it, looked up one in the other, lead through
directories to a directory.  `system_chdir` looks no part's kind up, and `trail` is where
it comes: it passes over plain files as over directories.  `entryAt` is what `lookup`
finds, which depends on the disk alone (`lookup_runs`), and is the entry with the name where
the inode is a file's (`entryAt_file`).
-/

import CS162.Filesys.RootOpen

namespace CS162
namespace Filesys

open CS162.Basis

/-! ### `system_chdir` -/

/-- A turn of the loop of `system_chdir`: the directory of a part, if there is one and memory
for it.  `start_dir` is closed either way. -/
def chdirPart (startDir : Option DirPtr) (name : List UInt8) : DirKernel (Option DirPtr) := do
  let start ← nonNull startDir
  let inode ← dirLookup start name
  match inode with
  | none =>
    dirClose startDir
    return none
  | some p =>
    let nextDir ← dirOpen (some p)
    dirClose startDir
    return nextDir

/-- The loop of `system_chdir`: what it returns, and `work_dir`. -/
def chdirFrom (workDir : Option DirPtr) :
    ℕ → List UInt8 → List UInt8 → Option DirPtr → DirKernel (Bool × Option DirPtr)
  | 0, _, _, _ => halt
  | turns + 1, name, path, startDir =>
    match getNextPart name path with
    | (false, _, _) => do
      -- `get_next_part` never returns -1
      dirClose workDir
      return (true, startDir)
    | (true, name, path) => do
      let nextDir ← chdirPart startDir (cString name)
      match nextDir with
      | none => return (false, workDir)
      | some next => chdirFrom workDir turns name path (some next)

/-- `system_chdir`. -/
def systemChdir (turns : ℕ) (workDir : Option DirPtr) (path : List UInt8) :
    DirKernel (Bool × Option DirPtr) := do
  let work ← nonNull workDir
  let startDir ← dirReopen work
  let name ← uninit (nameMax + 1)
  if path.head? = some 47 then
    dirClose startDir
    let startDir ← dirOpenRoot
    chdirFrom workDir turns name path startDir
  else chdirFrom workDir turns name path startDir

/-! ### The parts of a path -/

/-- The parts of a path. -/
def partsOf (path : List UInt8) : List (List UInt8) := (path.splitOn 47).filter (· ≠ [])

/-- What `get_next_part` can read: bytes other than null, in parts of at most 14. -/
structure GoodPath (path : List UInt8) : Prop where
  null : (0 : UInt8) ∉ path
  short : ∀ w ∈ partsOf path, w.length ≤ nameMax

theorem partsOf_slash (path : List UInt8) : partsOf (47 :: path) = partsOf path := by
  unfold partsOf
  rw [List.splitOn_cons_eq_if_modifyHead, if_pos (by rfl), List.filter_cons_of_neg (by simp)]

theorem partsOf_dropWhile (path : List UInt8) : partsOf (path.dropWhile (· = 47)) = partsOf path := by
  induction path with
  | nil => rfl
  | cons c path ih =>
    by_cases hc : c = 47
    · rw [List.dropWhile_cons_of_pos (by simpa using hc), ih, hc, partsOf_slash]
    · rw [List.dropWhile_cons_of_neg (by simpa using hc)]

/-- A part, and what is behind it. -/
theorem partsOf_word {word rest : List UInt8} (hword : word ≠ []) (hslash : 47 ∉ word)
    (hrest : rest = [] ∨ rest.head? = some 47) : partsOf (word ++ rest) = word :: partsOf rest := by
  unfold partsOf
  cases rest with
  | nil =>
    rw [List.append_nil, List.splitOn_eq_singleton hslash, List.splitOn_nil,
      List.filter_cons_of_pos (by simpa using hword), List.filter_cons_of_neg (by simp)]
  | cons c rest =>
    obtain rfl : c = 47 := by simpa using hrest
    rw [List.splitOn_append_cons_self_of_not_mem hslash,
      List.filter_cons_of_pos (by simpa using hword), List.splitOn_cons_eq_if_modifyHead,
      if_pos (by rfl), List.filter_cons_of_neg (by simp)]

/-- A path begins with slashes, and then there is nothing, or a part. -/
theorem dropWhile_cases (path : List UInt8) :
    (path.dropWhile (· = 47) = [] ∧ partsOf path = []) ∨
    ∃ word rest, path.dropWhile (· = 47) = word ++ rest ∧ word ≠ [] ∧
      (word ++ rest).takeWhile (· ≠ 47) = word ∧ partsOf path = word :: partsOf rest := by
  rw [← partsOf_dropWhile path]
  rcases dropWhile_eq_nil_or path with hsrc | ⟨c, rest, hsrc, hc⟩
  · rw [hsrc]
    exact .inl ⟨rfl, rfl⟩
  rw [hsrc]
  have hsplit : (c :: rest).takeWhile (· ≠ 47) ++ (c :: rest).dropWhile (· ≠ 47) = c :: rest :=
    List.takeWhile_append_dropWhile
  have hne : (c :: rest).takeWhile (· ≠ 47) ≠ [] := by
    rw [List.takeWhile_cons_of_pos (by simpa using hc)]
    exact List.cons_ne_nil _ _
  have hslash : (47 : UInt8) ∉ (c :: rest).takeWhile (· ≠ 47) := fun hmem => by
    simpa using List.mem_takeWhile_imp hmem
  refine .inr ⟨_, _, hsplit.symm, hne, by rw [hsplit], ?_⟩
  have hword : partsOf (_ ++ (c :: rest).dropWhile (· ≠ 47)) = _ := partsOf_word hne hslash ?_
  · rwa [hsplit] at hword
  · cases hdrop : (c :: rest).dropWhile (· ≠ 47) with
    | nil => exact .inl rfl
    | cons c' rest' =>
      have hhead := List.head?_dropWhile_not (fun b : UInt8 => b ≠ 47) (c :: rest)
      rw [hdrop] at hhead
      exact .inr (by simpa using hhead)

/-- `get_next_part` at the end of a path. -/
theorem getNextPart_end {path : List UInt8} (hparts : partsOf path = []) (name : List UInt8) :
    getNextPart name path = (false, name, path) := by
  unfold getNextPart
  rcases dropWhile_cases path with ⟨hsrc, -⟩ | ⟨word, rest, -, -, -, hcons⟩
  · rw [if_pos hsrc]
  · rw [hparts] at hcons
    cases hcons

/-- **`get_next_part`** finds the first part. -/
theorem getNextPart_part {path word : List UInt8} {words : List (List UInt8)} (hpath : GoodPath path)
    (hparts : partsOf path = word :: words) (name : List UInt8) : ∃ name' rest,
      getNextPart name path = (true, name', rest) ∧ cString name' = word ∧ GoodPath rest ∧
      partsOf rest = words ∧ rest.length < path.length := by
  unfold getNextPart
  rcases dropWhile_cases path with ⟨-, hnil⟩ | ⟨word', rest, hsrc, hne, htake, hcons⟩
  · rw [hparts] at hnil
    cases hnil
  obtain ⟨rfl, rfl⟩ := List.cons.inj (hparts.symm.trans hcons)
  have hsuffix : word ++ rest <:+ path := hsrc ▸ List.dropWhile_suffix _
  have hshort := hpath.short word (hparts ▸ List.mem_cons_self)
  have hnull : (0 : UInt8) ∉ word := fun hmem =>
    hpath.null (hsuffix.subset (List.mem_append_left _ hmem))
  have hlength := hsuffix.length_le
  have hpos := List.length_pos_iff.2 hne
  rw [hsrc]
  dsimp only
  rw [htake, if_neg (by simp [hne]), if_neg (by omega), List.drop_left]
  refine ⟨_, rest, rfl, ?_, ⟨fun hmem => ?_, fun w hw => ?_⟩, rfl, ?_⟩
  · rw [patch_zero, List.append_assoc]
    exact cString_append hnull
  · exact hpath.null (hsuffix.subset (List.mem_append_right _ hmem))
  · exact hpath.short w (hparts ▸ List.mem_cons_of_mem _ hw)
  · rw [List.length_append] at hlength
    omega

/-! ### Entries -/

/-- Two programs do the same, and change nothing. -/
def Alike {α : Type} (σ τ : FsState) (x y : Kernel α) : Prop :=
  ∃ r : Option α, x.run σ = r.map (·, σ) ∧ y.run τ = r.map (·, τ)

section Alike

variable {α β : Type} {σ τ : FsState} {x y : Kernel α} {f g : α → Kernel β}

theorem Alike.pure (a : α) : Alike σ τ (pure a) (pure a) := ⟨some a, rfl, rfl⟩

theorem Alike.halt : Alike σ τ (halt : Kernel α) halt := ⟨none, rfl, rfl⟩

theorem Alike.bind (h : Alike σ τ x y) (hf : ∀ a, Alike σ τ (f a) (g a)) :
    Alike σ τ (x >>= f) (y >>= g) := by
  obtain ⟨r, hx, hy⟩ := h
  cases r with
  | none =>
    refine ⟨none, ?_, ?_⟩
    · rw [StateT.run_bind, hx]
      rfl
    · rw [StateT.run_bind, hy]
      rfl
  | some a =>
    obtain ⟨r, hfa, hga⟩ := hf a
    exact ⟨r, (run_bind_of_run hx).trans hfa, (run_bind_of_run hy).trans hga⟩

theorem Alike.get_bind {f g : FsState → Kernel β} (h : Alike σ τ (f σ) (g τ)) :
    Alike σ τ (get >>= f) (get >>= g) := h

variable (h : σ.store = τ.store)
include h

theorem Alike.readSector (s : BlockSector) : Alike σ τ (readSector s) (readSector s) := by
  refine Alike.get_bind ?_
  rw [h]
  exact .pure _

theorem Alike.readBytes (s : BlockSector) (offset size : ℕ) :
    Alike σ τ (readBytes s offset size) (readBytes s offset size) := by
  refine Alike.get_bind ?_
  rw [h]
  exact .pure _

theorem Alike.inodeLength (s : BlockSector) : Alike σ τ (inodeLength s) (inodeLength s) :=
  (Alike.readSector h s).bind fun d => .pure d.length

theorem Alike.byteToSector (s : BlockSector) (pos : ℕ) :
    Alike σ τ (byteToSector s pos) (byteToSector s pos) := by
  refine (Alike.inodeLength h s).bind fun length => ?_
  split_ifs
  · refine Alike.get_bind ?_
    rw [h]
    cases indexPath τ.store s (pos / blockSectorSize) with
    | none => exact .halt
    | some sec => exact .pure sec
  · exact .pure _

theorem Alike.readLoop (s : BlockSector) (size offset : ℕ) :
    Alike σ τ (readLoop s size offset) (readLoop s size offset) := by
  induction size using Nat.strong_induction_on generalizing offset with
  | _ size ih =>
    unfold Filesys.readLoop
    split_ifs with hsize
    · exact .pure _
    refine (Alike.byteToSector h s offset).bind fun sectorIdx => ?_
    refine (Alike.inodeLength h s).bind fun length => ?_
    split_ifs with hchunk
    · exact .pure _
    refine (Alike.readBytes h sectorIdx _ _).bind fun bytes => ?_
    exact (ih _ (by omega) _).bind fun rest => .pure _

/-- `inode_read_at` of two inodes of one sector. -/
theorem Alike.inodeReadAt {p q : InodePtr} {i j : Inode} (hp : σ.inodes p = some i)
    (hq : τ.inodes q = some j) (hsector : i.sector = j.sector) (size offset : ℕ) :
    Alike σ τ (inodeReadAt p size offset) (inodeReadAt q size offset) := by
  obtain ⟨r, hr, hr'⟩ := Alike.readLoop h i.sector size offset
  refine ⟨r, ?_, ?_⟩
  · unfold Filesys.inodeReadAt
    rw [run_bind_of_run (run_getInode hp), hr]
  · unfold Filesys.inodeReadAt
    rw [run_bind_of_run (run_getInode hq), ← hsector, hr']

theorem Alike.lookupFrom {p q : InodePtr} {i j : Inode} (hp : σ.inodes p = some i)
    (hq : τ.inodes q = some j) (hsector : i.sector = j.sector) (name : List UInt8) (turns ofs : ℕ) :
    Alike σ τ (lookupFrom p name turns ofs) (lookupFrom q name turns ofs) := by
  induction turns generalizing ofs with
  | zero => exact .halt
  | succ turns ih =>
    unfold Filesys.lookupFrom
    refine (Alike.inodeReadAt h hp hq hsector 20 ofs).bind fun e => ?_
    split_ifs
    · exact .pure _
    · exact ih (ofs + 20)
    · exact .pure _

end Alike

/-- A file system of which only the disk matters, with an inode open at 0. -/
def diskOnly (disk : BlockSector → Sector) (s : BlockSector) : FsState :=
  ⟨disk, ⟨0, fun _ => false, by decide⟩, none, fun _ => some ⟨s, 1, false, 0⟩, [], fun _ => true, 0⟩

/-- What `lookup` finds in the data of a sector's inode: the sector of the entry in use with
the name, if there is one.  It does not return where the inode names no sector for a byte. -/
def entryAt (disk : BlockSector → Sector) (s : BlockSector) (name : List UInt8) :
    Option (Option BlockSector) :=
  ((lookup 0 name).run (diskOnly disk s)).map fun r => r.1.map fun e => entrySector e.1

/-- **`lookup`** looks at the disk alone. -/
theorem lookup_runs {σ : FsState} {p : InodePtr} {inode : Inode} (hp : σ.inodes p = some inode)
    (name : List UInt8) : ∃ r : Option (Option (List UInt8 × ℕ)), (lookup p name).run σ = r.map (·, σ) ∧
      entryAt σ.store inode.sector name = r.map (Option.map fun e => entrySector e.1) := by
  obtain ⟨r, hr, hr'⟩ := Alike.lookupFrom (σ := σ) (τ := diskOnly σ.store inode.sector) rfl hp
    (q := 0) rfl rfl name maxEntries 0
  refine ⟨r, hr, ?_⟩
  unfold entryAt lookup
  rw [hr', Option.map_map]
  rfl

/-! ### What a path means -/

/-- The inode of the sector is a directory's.  `do_format` does not mark the root. -/
def IsDirectory (disk : BlockSector → Sector) (s : BlockSector) : Prop :=
  s = rootDirSector ∨ (disk s).isDir = true

instance (disk : BlockSector → Sector) (s : BlockSector) : Decidable (IsDirectory disk s) :=
  inferInstanceAs (Decidable (_ ∨ _))

/-- **The parts lead from a directory to a directory.** -/
inductive Denotes (disk : BlockSector → Sector) : BlockSector → List (List UInt8) → BlockSector → Prop
  | here {s : BlockSector} : IsDirectory disk s → Denotes disk s [] s
  | part {s t u : BlockSector} {w : List UInt8} {ws : List (List UInt8)} : IsDirectory disk s →
      entryAt disk s w = some (some t) → Denotes disk t ws u → Denotes disk s (w :: ws) u

/-- Whether `inode_open` and `dir_open` of a sector get memory, from the request `k` on, and
the next request.  The inode of the sector `s` is open besides those that are open in `σ`. -/
def FsState.opensAt (σ : FsState) (s t : BlockSector) (k : ℕ) : Bool × ℕ :=
  if σ.isOpen t ∨ t = s then (σ.memory k, k + 1) else (σ.memory k && σ.memory (k + 1), k + 2)

/-- Where `system_chdir` comes from a sector on: all sectors on its way, if it gets to the end
of the path.  It fails where there is no entry or no memory.  `entry` looks names up. -/
def FsState.trailBy (σ : FsState) (entry : BlockSector → List UInt8 → Option (Option BlockSector)) :
    ℕ → BlockSector → List (List UInt8) → Option (Option (List BlockSector))
  | _, s, [] => some (some [s])
  | k, s, w :: ws =>
    match entry s w with
    | none => none
    | some none => some none
    | some (some t) =>
      if (σ.opensAt s t k).1 then
        (σ.trailBy entry (σ.opensAt s t k).2 t ws).map (Option.map (s :: ·))
      else some none

def FsState.trail (σ : FsState) : ℕ → BlockSector → List (List UInt8) → Option (Option (List BlockSector)) :=
  σ.trailBy (entryAt σ.store)

section Trail

variable {σ : FsState} {k : ℕ} {s t : BlockSector} {w : List UInt8} {ws : List (List UInt8)}

theorem FsState.trail_stuck (h : entryAt σ.store s w = none) : σ.trail k s (w :: ws) = none := by
  unfold FsState.trail
  rw [FsState.trailBy, h]

theorem FsState.trail_none (h : entryAt σ.store s w = some none) :
    σ.trail k s (w :: ws) = some none := by
  unfold FsState.trail
  rw [FsState.trailBy, h]

theorem FsState.trail_part (h : entryAt σ.store s w = some (some t))
    (hmem : (σ.opensAt s t k).1 = true) : σ.trail k s (w :: ws) =
      (σ.trail (σ.opensAt s t k).2 t ws).map (Option.map (s :: ·)) := by
  unfold FsState.trail
  rw [FsState.trailBy, h]
  dsimp only
  rw [if_pos hmem]

theorem FsState.trail_refused (h : entryAt σ.store s w = some (some t))
    (hmem : (σ.opensAt s t k).1 = false) : σ.trail k s (w :: ws) = some none := by
  unfold FsState.trail
  rw [FsState.trailBy, h]
  dsimp only
  rw [hmem, if_neg Bool.false_ne_true]

end Trail

/-- The sector that a path starts at, with the working directory's sector `x`. -/
def startSector (x : BlockSector) (path : List UInt8) : BlockSector :=
  if path.head? = some 47 then rootDirSector else x

/-- Whether the directory that a path starts at gets memory, and the next request.  The first
request is `dir_reopen`'s. -/
def FsState.startsAt (σ : FsState) (x : BlockSector) (path : List UInt8) : Bool × ℕ :=
  if path.head? = some 47 then σ.opensAt x rootDirSector 1 else (σ.memory 0, 1)

/-- How often the inode of a sector is open. -/
def FsState.opens (σ : FsState) (s : BlockSector) : ℤ :=
  ((σ.openInodes.find? (σ.isAt s)).bind σ.inodes).elim 0 Inode.openCnt

end Filesys
end CS162

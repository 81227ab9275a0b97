/-
# Paths

`projects1-3/src/filesys/filesys.c`, lines 40-102 (`traverse_path`,
`filesys_create`) and 199-222 (`get_next_part`).

A path is its bytes without the null byte.  `get_next_part` leaves the path where it
was when a part is too long, so a loop over the parts sees that part again; the
loop of `traverse_path` gets as many turns as `turns` says.
-/

import Mathlib.Data.List.TakeWhile
import CS162.Filesys.Directory

namespace CS162
namespace Filesys

open CS162.Basis

/-- `get_next_part`: what it returns, the part and the rest of the path. -/
def getNextPart (part path : List UInt8) : Bool × List UInt8 × List UInt8 :=
  let src := path.dropWhile (· = 47)
  let word := src.takeWhile (· ≠ 47)
  if src = [] then (false, part, path)
  else if nameMax < word.length then (true, patch part 0 (word.take nameMax), path)
  else (true, patch part 0 (word ++ [0]), src.drop word.length)

/-- `is_dir` of an inode, which is not null. -/
def isDirAt (p : InodePtr) : Kernel Bool := do
  let inode ← getInode p
  isDir inode.sector

/-- A null pointer has no inode. -/
def nonNull {α : Type} : Option α → DirKernel α
  | some a => return a
  | none => halt

@[simp] theorem nonNull_some {α : Type} (a : α) : nonNull (some a) = pure a := rfl

/-- The loop of `traverse_path`: `*dir`, `*cinode` and `name`. -/
def traverseFrom : ℕ → List UInt8 → List UInt8 → DirPtr → Option InodePtr →
    DirKernel (Option (DirPtr × Option InodePtr × List UInt8))
  | 0, _, _, _, _ => halt
  | turns + 1, name, path, curDir, inode =>
    match getNextPart name path with
    | (false, name, _) => return some (curDir, inode, name)
    | (true, name, path) =>
      if cString name = [46] then traverseFrom turns name path curDir inode
      else
        match inode with
        | none => do
          dirClose (some curDir)
          return none
        | some p => do
          let kind ← onInodes (isDirAt p)
          if kind = false then
            onInodes (inodeClose p)
            dirClose (some curDir)
            return none
          else
            let nextDir ← dirOpen (some p)
            dirClose (some curDir)
            let curDir ← nonNull nextDir
            let inode ← dirLookup curDir (cString name)
            traverseFrom turns name path curDir inode

/-- Where `traverse_path` starts. -/
def startDir (path : List UInt8) : DirKernel (Option DirPtr) := do
  let D ← get
  if path.head? = some 47 then dirOpenRoot else dirReopen D.workDir

/-- `traverse_path`, with the buffer for the name. -/
def traversePath (turns : ℕ) (path name : List UInt8) :
    DirKernel (Option (DirPtr × Option InodePtr × List UInt8)) :=
  if path = [] then return none
  else do
    let opened ← startDir path
    let curDir ← nonNull opened
    let dir ← getDir curDir
    let inode ← onInodes (getInode dir.inode)
    if inode.removed then
      dirClose (some curDir)
      return none
    else
      onInodes (inodeReopen dir.inode)
      traverseFrom turns name path curDir (some dir.inode)

/-- `filesys_create`. -/
def filesysCreate (turns : ℕ) (path : List UInt8) (initialSize : Off) : DirKernel Bool := do
  let start ← dirOpenRoot
  let name ← uninit (nameMax + 1)
  let found ← traversePath turns path name
  match found with
  | none =>
    dirClose start
    return false
  | some (dir, some cinode, _) =>
    onInodes (inodeClose cinode)
    dirClose (some dir)
    return false
  | some (dir, none, name) =>
    let sector ← onInodes (freeMapAllocate 1)
    match sector with
    | none =>
      dirClose (some dir)
      return false
    | some sector =>
      let created ← onInodes (inodeCreate sector initialSize)
      let success ← if created then dirAdd dir (cString name) sector else pure false
      if success = false ∧ sector ≠ 0 then onInodes (freeMapRelease sector 1)
      dirClose (some dir)
      return success

/-- `filesys_open`; `none` is a null pointer. -/
def filesysOpen (turns : ℕ) (path : List UInt8) : DirKernel (Option FilePtr) := do
  let D ← get
  let start ← dirReopen D.workDir
  let name ← uninit (nameMax + 1)
  let found ← traversePath turns path name
  match found with
  | none =>
    dirClose start
    return none
  | some (dir, _, name) =>
    let inode ← dirLookup dir (cString name)
    onFiles (fileOpen inode)

/-! ### Paths that lead nowhere -/

/-- The parts of the path are all `.`. -/
def onlyDots : List UInt8 → Bool
  | [] => true
  | c :: rest => (c == 47 || c == 46 && rest.headD 47 == 47) && onlyDots rest

theorem onlyDots_dropWhile (path : List UInt8) :
    onlyDots (path.dropWhile (· = 47)) = onlyDots path := by
  induction path with
  | nil => rfl
  | cons c path ih =>
    by_cases hc : c = 47
    · rw [List.dropWhile_cons_of_pos (by simpa using hc), ih, hc]
      rfl
    · rw [List.dropWhile_cons_of_neg (by simpa using hc)]

/-- A part that is not `.`. -/
theorem onlyDots_of_part {c : UInt8} {rest : List UInt8} (hc : c ≠ 47)
    (hpart : (c :: rest).takeWhile (· ≠ 47) ≠ [46]) : onlyDots (c :: rest) = false := by
  rw [List.takeWhile_cons_of_pos (by simpa using hc)] at hpart
  rw [onlyDots, beq_eq_false_iff_ne.2 hc, Bool.false_or, Bool.and_eq_false_iff,
    Bool.and_eq_false_iff]
  by_cases hdot : c = 46
  · refine .inl (.inr (beq_eq_false_iff_ne.2 fun hslash => hpart ?_))
    cases rest with
    | nil => rw [hdot, List.takeWhile_nil]
    | cons c' rest =>
      rw [List.headD_cons] at hslash
      rw [hdot, List.takeWhile_cons_of_neg (by simpa using hslash)]
  · exact .inl (.inl (beq_eq_false_iff_ne.2 hdot))

/-- A part `.`. -/
theorem onlyDots_of_dot {rest : List UInt8} (hpart : rest.takeWhile (· ≠ 47) = []) :
    onlyDots (46 :: rest) = onlyDots rest := by
  cases rest with
  | nil => rfl
  | cons c rest =>
    have hc : c = 47 := by
      by_contra hne
      rw [List.takeWhile_cons_of_pos (by simpa using hne)] at hpart
      exact absurd hpart (List.cons_ne_nil _ _)
    rw [hc]
    rfl

theorem dropWhile_eq_nil_or (path : List UInt8) : path.dropWhile (· = 47) = [] ∨
    ∃ c rest, path.dropWhile (· = 47) = c :: rest ∧ c ≠ 47 := by
  induction path with
  | nil => exact .inl rfl
  | cons c path ih =>
    by_cases hc : c = 47
    · rwa [List.dropWhile_cons_of_pos (by simpa using hc)]
    · exact .inr ⟨c, path, List.dropWhile_cons_of_neg (by simpa using hc), hc⟩

theorem patch_zero (buffer bytes : List UInt8) :
    patch buffer 0 bytes = bytes ++ buffer.drop bytes.length := by
  rw [patch, List.take_zero, List.nil_append, Nat.zero_add]

/-- The string of a buffer that starts with a string. -/
theorem cString_append {word rest : List UInt8} (hword : (0 : UInt8) ∉ word) :
    cString (word ++ 0 :: rest) = word := by
  unfold cString
  rw [List.takeWhile_append_of_pos fun b hb => ?_]
  · rw [List.takeWhile_cons_of_neg (by simp), List.append_nil]
  · simpa using fun hzero : b = 0 => hword (hzero ▸ hb)

/-- The string of a buffer that starts with bytes other than null. -/
theorem le_length_cString {bytes rest : List UInt8} (hbytes : (0 : UInt8) ∉ bytes) :
    bytes.length ≤ (cString (bytes ++ rest)).length := by
  unfold cString
  rw [List.takeWhile_append_of_pos fun b hb => ?_]
  · rw [List.length_append]
    exact Nat.le_add_right ..
  · simpa using fun hzero : b = 0 => hbytes (hzero ▸ hb)

/-- What `get_next_part` finds: nothing, a part `.`, or another part. -/
theorem getNextPart_cases {path : List UInt8} (hpath : (0 : UInt8) ∉ path) (name : List UInt8) :
    (getNextPart name path = (false, name, path) ∧ onlyDots path = true ∧ 46 ∉ path) ∨
    (∃ name' rest, getNextPart name path = (true, name', rest) ∧ cString name' = [46] ∧
      rest.length < path.length ∧ rest <:+ path ∧ onlyDots rest = onlyDots path ∧ 46 ∈ path) ∨
    ∃ name' rest, getNextPart name path = (true, name', rest) ∧ cString name' ≠ [46] ∧
      onlyDots path = false := by
  unfold getNextPart
  rw [← onlyDots_dropWhile path]
  have hsuffix : path.dropWhile (· = 47) <:+ path := List.dropWhile_suffix _
  rcases dropWhile_eq_nil_or path with hsrc | ⟨c, rest, hsrc, hc⟩
  · refine .inl ⟨by rw [hsrc]; rfl, by rw [hsrc]; rfl, fun hdot => ?_⟩
    exact absurd (List.dropWhile_eq_nil_iff.1 hsrc 46 hdot) (by decide)
  rw [hsrc] at hsuffix ⊢
  set word := (c :: rest).takeWhile (· ≠ 47) with hword
  have hnull : (0 : UInt8) ∉ word := fun hmem =>
    hpath (hsuffix.subset ((List.takeWhile_prefix _).subset hmem))
  by_cases hlong : nameMax < word.length
  · have hlength : (word.take nameMax).length = 14 := by
      rw [List.length_take, Nat.min_eq_left (Nat.le_of_lt hlong)]
      rfl
    refine .inr (.inr ⟨_, _, by rw [if_neg (List.cons_ne_nil _ _), if_pos hlong], fun hdot => ?_,
      onlyDots_of_part hc fun hdot => ?_⟩)
    · have hle : (word.take nameMax).length ≤
          (cString (word.take nameMax ++ name.drop (word.take nameMax).length)).length :=
        le_length_cString fun hmem => hnull (List.mem_of_mem_take hmem)
      rw [← patch_zero, hdot, hlength] at hle
      exact absurd hle (by decide)
    · rw [← hword] at hdot
      rw [hdot] at hlong
      exact absurd hlong (by decide)
  · have hrun : cString (patch name 0 (word ++ [0])) = word := by
      rw [patch_zero, List.append_assoc]
      exact cString_append hnull
    by_cases hdot : word = [46]
    · have hnext : (c :: rest).drop word.length = rest := by rw [hdot]; rfl
      have htake := hword.symm.trans hdot
      rw [List.takeWhile_cons_of_pos (by simpa using hc)] at htake
      obtain ⟨rfl, htail⟩ := List.cons.inj htake
      refine .inr (.inl ⟨_, rest, by rw [if_neg (List.cons_ne_nil _ _), if_neg hlong, hnext],
        hrun.trans hdot, ?_, (List.suffix_cons _ _).trans hsuffix, (onlyDots_of_dot htail).symm,
        hsuffix.subset List.mem_cons_self⟩)
      exact hsuffix.length_le
    · exact .inr (.inr ⟨_, _, by rw [if_neg (List.cons_ne_nil _ _), if_neg hlong],
        fun h => hdot (hrun ▸ h), onlyDots_of_part hc hdot⟩)

end Filesys
end CS162

/-
# Archives on the scratch device

`projects1-3/src/filesys/fsutil.c`, lines 69-216: `fsutil_append` and `fsutil_extract`.

Files are appended to an archive on the scratch device one call after the other, each over the end
that the one before has written.  What a call reads of its file (`readFile`) is what
`fsutil_extract` later puts into a file system (`putFile`), in the same order, with every failure of
`filesys_create`, `filesys_open` and `file_write` a panic; and nothing is put when it is done again
(`fsutil_round_trip`).

A sector number is below the size of the device wherever it is used, so it is a number here.
-/

import CS162.Basis.Blocks
import CS162.Filesys.Paths
import CS162.Lib.Ustar

namespace CS162
namespace Filesys

open CS162.Basis CS162.Lib

/-! ### The functions -/

/-- The scratch device. -/
structure Scratch where
  size : ℕ
  sectors : ℕ → Sector

/-- `block_read`; `none` is a panic. -/
def Scratch.read (d : Scratch) (sector : ℕ) : Option Sector :=
  if sector < d.size then some (d.sectors sector) else none

/-- `block_write`. -/
def Scratch.write (d : Scratch) (sector : ℕ) (buffer : Sector) : Option Scratch :=
  if sector < d.size then some { d with sectors := Function.update d.sectors sector buffer } else none

/-- A name as a C string. -/
abbrev FileName := {bytes : List UInt8 // 0 ∉ bytes}

/-- The buffer with the next bytes of a file and zeros after them. -/
def padded (bs : List UInt8) : Sector := copyInto Sector.zero 0 bs

/-- `malloc` of a buffer; without memory there is a panic. -/
def mallocBuffer : DirKernel Unit := do
  let delivered ← onInodes alloc
  if delivered then return () else halt

/-- The loop of `fsutil_append` over what is left of the file, `size` bytes. -/
def appendData (src : FilePtr) (size : ℕ) (dst : Scratch) (sector : ℕ) : DirKernel (Scratch × ℕ) :=
  if size = 0 then return (dst, sector)
  else if dst.size ≤ sector then halt
  else do
    let chunkSize := min 512 size
    let buffer ← onFiles (fileRead src chunkSize)
    if buffer.length ≠ chunkSize then halt
    else
      let dst ← nonNull (dst.write sector (padded buffer))
      appendData src (size - chunkSize) dst (sector + 1)
termination_by size
decreasing_by omega

/-- `fsutil_append`; `sector` is its static variable. -/
def fsutilAppend (turns : ℕ) (dst : Scratch) (sector : ℕ) (fileName : FileName) :
    DirKernel (Scratch × ℕ) := do
  mallocBuffer
  let file ← filesysOpen turns fileName
  let src ← nonNull file
  let length ← onFiles (fileLength src)
  let size := Int32.ofInt length
  let header ← nonNull (ustarMakeHeader fileName .regular size)
  let dst ← nonNull (dst.write sector header)
  let (dst, sector) ← appendData src size.toNatClampNeg dst (sector + 1)
  let dst ← nonNull (dst.write sector Sector.zero)
  let dst ← nonNull (dst.write (sector + 1) Sector.zero)
  onFiles (fileClose src)
  return (dst, sector)

/-- The loop of `fsutil_extract` over what is left of a file. -/
def extractData (dst : FilePtr) (src : Scratch) (sector size : ℕ) : DirKernel ℕ :=
  if size = 0 then return sector
  else do
    let chunkSize := min 512 size
    let data ← nonNull (src.read sector)
    let written ← onFiles (fileWrite dst (slice data 0 chunkSize))
    if written ≠ chunkSize then halt else extractData dst src (sector + 1) (size - chunkSize)
termination_by size
decreasing_by omega

/-- The outer loop, for no more than `rounds` rounds. -/
def extractFiles (turns : ℕ) (src : Scratch) : ℕ → ℕ → DirKernel ℕ
  | 0, _ => halt
  | rounds + 1, sector => do
    let header ← nonNull (src.read sector)
    -- a header that is refused is a panic
    let found ← nonNull (ustarParseHeader header).toOption
    match found with
    | none => return sector + 1
    | some ⟨_, .directory, _⟩ => extractFiles turns src rounds (sector + 1)
    | some ⟨fileName, .regular, size⟩ => do
      let created ← filesysCreate turns fileName size.toInt
      if created = false then halt
      else
        let file ← filesysOpen turns fileName
        let dst ← nonNull file
        let sector ← extractData dst src (sector + 1) size.toNatClampNeg
        onFiles (fileClose dst)
        extractFiles turns src rounds sector

/-- `fsutil_extract`: the device without the start of the archive, and the static variable.  Every
round reads a sector, so there are no more rounds than sectors and one. -/
def fsutilExtract (turns : ℕ) (src : Scratch) (sector : ℕ) : DirKernel (Scratch × ℕ) := do
  mallocBuffer
  mallocBuffer
  let sector ← extractFiles turns src (src.size + 1) sector
  let src ← nonNull (src.write 0 Sector.zero)
  let src ← nonNull (src.write 1 Sector.zero)
  return (src, sector)

/-- Calls of `fsutil_append`. -/
def appendAll (turns : ℕ) (dst : Scratch) (sector : ℕ) : List FileName → DirKernel (Scratch × ℕ)
  | [] => return (dst, sector)
  | fileName :: fileNames => do
    let (dst, sector) ← fsutilAppend turns dst sector fileName
    appendAll turns dst sector fileNames

/-! ### What goes into an archive, and what comes out -/

/-- A file as it is archived: its name, its `off_t` length and its bytes. -/
structure ArchivedFile where
  fileName : FileName
  size : Int32
  data : List UInt8
  length_eq : data.length = size.toNatClampNeg

/-- All bytes of a file, read a sector at a time; a short read is a panic. -/
def readData (src : FilePtr) (size : ℕ) : DirKernel {data : List UInt8 // data.length = size} :=
  if hzero : size = 0 then return ⟨[], hzero.symm⟩
  else do
    let buffer ← onFiles (fileRead src (min 512 size))
    if hbuffer : buffer.length = min 512 size then
      let data ← readData src (size - min 512 size)
      return ⟨buffer ++ data, by rw [List.length_append, hbuffer, data.2]; omega⟩
    else halt
termination_by size
decreasing_by omega

/-- The file of that name, read from the start. -/
def readFile (turns : ℕ) (fileName : FileName) : DirKernel ArchivedFile := do
  mallocBuffer
  let file ← filesysOpen turns fileName
  let src ← nonNull file
  let length ← onFiles (fileLength src)
  let data ← readData src (Int32.ofInt length).toNatClampNeg
  onFiles (fileClose src)
  return ⟨fileName, Int32.ofInt length, data, data.2⟩

/-- Files, read one after the other. -/
def readFiles (turns : ℕ) : List FileName → DirKernel (List ArchivedFile)
  | [] => return []
  | fileName :: fileNames => do
    let file ← readFile turns fileName
    let files ← readFiles turns fileNames
    return file :: files

/-- Bytes, written to a file a sector at a time; a short write is a panic. -/
def putData (dst : FilePtr) (data : List UInt8) : DirKernel Unit :=
  if data = [] then return ()
  else do
    let written ← onFiles (fileWrite dst (data.take 512))
    if written ≠ (data.take 512).length then halt else putData dst (data.drop 512)
termination_by data.length
decreasing_by
  rename_i hne _
  have hpos := List.length_pos_of_ne_nil hne
  rw [List.length_drop]
  omega

/-- The name under which a file is put back. -/
def ArchivedFile.target (file : ArchivedFile) : List UInt8 := stripAntisocialPrefixes file.fileName

/-- The file is made under its name without what leads out of the directory, and its bytes are
written.  A negative length is a panic, as are refusals to make, open or write the file. -/
def putFile (turns : ℕ) (file : ArchivedFile) : DirKernel Unit :=
  if file.size < 0 then halt
  else do
    let created ← filesysCreate turns file.target file.data.length
    if created = false then halt
    else
      let opened ← filesysOpen turns file.target
      let dst ← nonNull opened
      putData dst file.data
      onFiles (fileClose dst)

/-- Files, put one after the other. -/
def putFiles (turns : ℕ) : List ArchivedFile → DirKernel Unit
  | [] => return ()
  | file :: files => do
    putFile turns file
    putFiles turns files

/-! ### Archives -/

/-- The sectors of a file's bytes. -/
def dataSectors (data : List UInt8) : List Sector :=
  if data = [] then [] else padded (data.take 512) :: dataSectors (data.drop 512)
termination_by data.length
decreasing_by
  rename_i hne
  have hpos := List.length_pos_of_ne_nil hne
  rw [List.length_drop]
  omega

/-- The sectors of a file. -/
def record (file : ArchivedFile) : Option (List Sector) :=
  (ustarMakeHeader file.fileName .regular file.size).map (· :: dataSectors file.data)

/-- The sectors of an archive without its end. -/
def archive : List ArchivedFile → Option (List Sector)
  | [] => some []
  | file :: files => do
    let ss ← record file
    let ts ← archive files
    return ss ++ ts

/-- The end of an archive. -/
def archiveEnd : List Sector := [Sector.zero, Sector.zero]

/-- Sectors written one after the other. -/
def Scratch.put (d : Scratch) (sector : ℕ) (ss : List Sector) : Scratch :=
  { d with sectors := overwrite d.sectors sector ss }

@[simp] theorem put_size (d : Scratch) (sector : ℕ) (ss : List Sector) :
    (d.put sector ss).size = d.size := rfl

theorem put_nil (d : Scratch) (sector : ℕ) : d.put sector [] = d := by
  rw [Scratch.put, overwrite_nil]

theorem put_append (d : Scratch) (sector : ℕ) (ss ts : List Sector) :
    (d.put sector ss).put (sector + ss.length) ts = d.put sector (ss ++ ts) := by
  unfold Scratch.put
  rw [overwrite_append]

/-- One sector that is written. -/
theorem write_eq (d : Scratch) (sector : ℕ) (s : Sector) :
    d.write sector s = if sector < d.size then some (d.put sector [s]) else none := by
  have hupdate : Function.update d.sectors sector s = overwrite d.sectors sector [s] := by
    funext j
    rcases Nat.lt_trichotomy j sector with hj | rfl | hj
    · rw [Function.update_of_ne hj.ne, overwrite_outside _ (.inl hj)]
    · rw [Function.update_self, overwrite_inside _ (Nat.le_refl _) (by simp)]
      simp
    · rw [Function.update_of_ne hj.ne', overwrite_outside _ (.inr hj)]
  rw [Scratch.write, Scratch.put, hupdate]

/-- What is written over is written over whole, if there is enough. -/
theorem put_over (d : Scratch) (sector : ℕ) (ss : List Sector) {ts us : List Sector}
    (h : ts.length ≤ us.length) :
    (d.put sector (ss ++ ts)).put (sector + ss.length) us = d.put sector (ss ++ us) := by
  have hover : overwrite (overwrite (overwrite d.sectors sector ss) (sector + ss.length) ts)
      (sector + ss.length) us = overwrite (overwrite d.sectors sector ss) (sector + ss.length) us := by
    funext j
    by_cases hj : sector + ss.length ≤ j ∧ j < sector + ss.length + us.length
    · rw [overwrite_inside _ hj.1 (by omega), overwrite_inside _ hj.1 (by omega)]
    · exact (overwrite_outside _ (by omega)).trans
        ((overwrite_outside _ (by omega)).trans (overwrite_outside _ (by omega)).symm)
  rw [← put_append, ← put_append]
  exact congrArg (fun sectors => ({ d with sectors := sectors } : Scratch)) hover

/-- The archive after a file is appended over its end, and where it then ends. -/
def appendFile (d : Scratch) (sector : ℕ) (file : ArchivedFile) : Option (Scratch × ℕ) :=
  (record file).bind fun ss =>
    if sector + ss.length + 2 ≤ d.size then
      some (d.put sector (ss ++ archiveEnd), sector + ss.length)
    else none

/-- Files, appended one after the other. -/
def appendFiles (d : Scratch) (sector : ℕ) : List ArchivedFile → Option (Scratch × ℕ)
  | [] => some (d, sector)
  | file :: files => do
    let (d, sector) ← appendFile d sector file
    appendFiles d sector files

/-! ### What is appended -/

theorem length_dataSectors (data : List UInt8) :
    (dataSectors data).length = (data.length + 511) / 512 := by
  induction data using dataSectors.induct with
  | case1 =>
    rw [dataSectors, if_pos rfl]
    rfl
  | case2 data hdata ih =>
    have hpos := List.length_pos_of_ne_nil hdata
    rw [dataSectors, if_neg hdata, List.length_cons, ih, List.length_drop]
    omega

/-- The first sector of a file, and the others. -/
theorem dataSectors_append {size : ℕ} (hsize : size ≠ 0) {buffer data : List UInt8}
    (hbuffer : buffer.length = min 512 size) (hdata : data.length = size - min 512 size) :
    dataSectors (buffer ++ data) = padded buffer :: dataSectors data := by
  have hne : buffer ++ data ≠ [] := fun hnil => by
    have hlength := congrArg List.length hnil
    rw [List.length_append, List.length_nil] at hlength
    omega
  have htake : (buffer ++ data).take 512 = buffer ∧ (buffer ++ data).drop 512 = data := by
    rcases Nat.lt_or_ge size 512 with hlt | hge
    · have hnil : data = [] := List.length_eq_zero_iff.1 (by omega)
      subst hnil
      rw [List.append_nil]
      exact ⟨List.take_of_length_le (by omega), List.drop_eq_nil_of_le (by omega)⟩
    · have hlength : buffer.length = 512 := by omega
      exact ⟨List.take_left' hlength, List.drop_left' hlength⟩
  rw [dataSectors, if_neg hne, htake.1, htake.2]

/-- **The loop of `fsutil_append`** reads the bytes that are left, and writes their sectors if the
device has them. -/
theorem appendData_eq (src : FilePtr) (size : ℕ) (d : Scratch) (sector : ℕ) :
    appendData src size d sector = (do
      let data ← readData src size
      if sector + (size + 511) / 512 ≤ d.size ∨ size = 0 then
        return (d.put sector (dataSectors data), sector + (size + 511) / 512)
      else halt) := by
  induction size using Nat.strong_induction_on generalizing d sector with
  | _ size ih =>
    rw [appendData, readData]
    by_cases hzero : size = 0
    · subst hzero
      rw [if_pos rfl, dif_pos rfl, pure_bind, if_pos (.inr rfl), dataSectors, if_pos rfl, put_nil]
      rfl
    rw [if_neg hzero, dif_neg hzero]
    by_cases hend : d.size ≤ sector
    · have hno : ¬(sector + (size + 511) / 512 ≤ d.size ∨ size = 0) := by omega
      simp only [if_pos hend, if_neg hno]
      exact (bind_halt _).symm
    rw [if_neg hend, bind_assoc]
    refine congrArg (onFiles (fileRead src (min 512 size)) >>= ·) (funext fun buffer => ?_)
    by_cases hbuffer : buffer.length = min 512 size
    · rw [if_neg (not_not.2 hbuffer), dif_pos hbuffer, write_eq, if_pos (Nat.lt_of_not_le hend),
        nonNull_some, pure_bind, ih (size - min 512 size) (by omega), bind_assoc]
      refine congrArg (readData src (size - min 512 size) >>= ·) (funext fun data => ?_)
      have hput := put_append d sector [padded buffer] (dataSectors data)
      rw [List.length_singleton, List.singleton_append] at hput
      rw [pure_bind, put_size, hput, dataSectors_append hzero hbuffer data.2]
      have hcount : sector + 1 + (size - min 512 size + 511) / 512 = sector + (size + 511) / 512 := by
        omega
      by_cases hfits : sector + (size + 511) / 512 ≤ d.size ∨ size = 0
      · rw [if_pos hfits, if_pos (by omega), hcount]
      · rw [if_neg hfits, if_neg (by omega)]
    · rw [if_pos hbuffer, dif_neg hbuffer]
      rfl

/-- The end of the archive is written. -/
theorem writeEnd_eq {α : Type} (d : Scratch) (sector : ℕ) (f : Scratch → DirKernel α) : (do
      let d ← nonNull (d.write sector Sector.zero)
      let d ← nonNull (d.write (sector + 1) Sector.zero)
      f d) =
    if sector + 2 ≤ d.size then f (d.put sector archiveEnd) else halt := by
  rw [write_eq]
  by_cases hlt : sector < d.size
  · rw [if_pos hlt]
    change (nonNull ((d.put sector [Sector.zero]).write (sector + 1) Sector.zero) >>= f) = _
    have hput := put_append d sector [Sector.zero] [Sector.zero]
    rw [List.length_singleton, List.singleton_append] at hput
    rw [write_eq, put_size, hput]
    by_cases hlt' : sector + 1 < d.size
    · rw [if_pos hlt', if_pos (show sector + 2 ≤ d.size by omega)]
      rfl
    · rw [if_neg hlt', if_neg (show ¬sector + 2 ≤ d.size by omega)]
      rfl
  · rw [if_neg hlt, if_neg (show ¬sector + 2 ≤ d.size by omega)]
    rfl

/-- **`fsutil_append`** reads the file, and appends it over the end of the archive if it fits. -/
theorem fsutilAppend_eq (turns : ℕ) (d : Scratch) (sector : ℕ) (fileName : FileName) :
    fsutilAppend turns d sector fileName = (do
      let file ← readFile turns fileName
      nonNull (appendFile d sector file)) := by
  unfold fsutilAppend readFile
  simp only [bind_assoc, pure_bind]
  refine congrArg (mallocBuffer >>= ·) (funext fun _ => ?_)
  refine congrArg (filesysOpen turns fileName >>= ·) (funext fun file => ?_)
  refine congrArg (nonNull file >>= ·) (funext fun src => ?_)
  refine congrArg (onFiles (fileLength src) >>= ·) (funext fun length => ?_)
  unfold appendFile record
  dsimp only
  generalize Int32.ofInt length = size
  cases hheader : ustarMakeHeader fileName .regular size with
  | none =>
    simp only [Option.map_none, Option.bind_none]
    exact ((congrArg (readData src size.toNatClampNeg >>= ·)
      (funext fun _ => bind_halt _)).trans (bind_halt _)).symm
  | some header =>
    simp only [Option.map_some, Option.bind_some, List.length_cons, length_dataSectors, nonNull_some,
      pure_bind]
    rw [write_eq]
    by_cases hlt : sector < d.size
    · rw [if_pos hlt, nonNull_some, pure_bind, appendData_eq, bind_assoc, put_size]
      refine congrArg (readData src size.toNatClampNeg >>= ·) (funext fun data => ?_)
      have hput := put_append d sector [header] (dataSectors data)
      rw [List.length_singleton, List.singleton_append] at hput
      rw [data.2]
      by_cases hdata : sector + 1 + (size.toNatClampNeg + 511) / 512 ≤ d.size ∨
          size.toNatClampNeg = 0
      · rw [if_pos hdata, pure_bind, hput]
        dsimp only
        rw [writeEnd_eq, put_size]
        have hend := put_append d sector (header :: dataSectors data) archiveEnd
        rw [List.length_cons, length_dataSectors, data.2] at hend
        rw [show sector + 1 + (size.toNatClampNeg + 511) / 512 =
          sector + ((size.toNatClampNeg + 511) / 512 + 1) by omega, hend]
        split_ifs
        · rfl
        · exact (bind_halt _).symm
      · rw [if_neg hdata, if_neg (fun h => hdata (.inl (by omega)))]
        exact (bind_halt _).symm
    · rw [if_neg hlt]
      have hno : ¬sector + ((size.toNatClampNeg + 511) / 512 + 1) + 2 ≤ d.size := by omega
      change halt = _
      refine ((congrArg (readData src size.toNatClampNeg >>= ·) (funext fun data => ?_)).trans
        (bind_halt _)).symm
      rw [data.2, if_neg hno]
      exact bind_halt _

/-- **Calls of `fsutil_append`** read the files, and append them. -/
theorem appendAll_eq (turns : ℕ) (fileNames : List FileName) (d : Scratch) (sector : ℕ) :
    appendAll turns d sector fileNames = (do
      let files ← readFiles turns fileNames
      nonNull (appendFiles d sector files)) := by
  induction fileNames generalizing d sector with
  | nil => rfl
  | cons fileName fileNames ih =>
    unfold appendAll readFiles
    rw [fsutilAppend_eq, bind_assoc, bind_assoc]
    refine congrArg (readFile turns fileName >>= ·) (funext fun file => ?_)
    rw [bind_assoc]
    simp only [pure_bind, appendFiles]
    cases appendFile d sector file with
    | none => exact (bind_halt _).symm
    | some r => exact ih r.1 r.2

theorem archive_cons {file : ArchivedFile} {files : List ArchivedFile} {us : List Sector}
    (h : archive (file :: files) = some us) :
    ∃ ss ts, record file = some ss ∧ archive files = some ts ∧ us = ss ++ ts := by
  obtain ⟨ss, hss, h⟩ := Option.bind_eq_some_iff.1 h
  obtain ⟨ts, hts, h⟩ := Option.bind_eq_some_iff.1 h
  exact ⟨ss, ts, hss, hts, (Option.some.inj h).symm⟩

/-- Files that have no archive are not appended. -/
theorem appendFiles_none {files : List ArchivedFile} (h : archive files = none) (d : Scratch)
    (sector : ℕ) : appendFiles d sector files = none := by
  induction files generalizing d sector with
  | nil => cases h
  | cons file files ih =>
    rw [appendFiles, appendFile]
    cases hss : record file with
    | none => rfl
    | some ss =>
      have hts : archive files = none := by
        cases hts : archive files with
        | none => rfl
        | some ts =>
          rw [archive, hss, hts] at h
          cases h
      rw [Option.bind_some]
      split_ifs
      · exact ih hts _ _
      · rfl

/-- **Files that are appended** make one archive, if it fits. -/
theorem appendFiles_eq {files : List ArchivedFile} {us : List Sector} (h : archive files = some us)
    (d : Scratch) (sector : ℕ) : appendFiles d sector files =
      if files = [] then some (d, sector)
      else if sector + us.length + 2 ≤ d.size then
        some (d.put sector (us ++ archiveEnd), sector + us.length)
      else none := by
  induction files generalizing d sector us with
  | nil => rfl
  | cons file files ih =>
    obtain ⟨ss, ts, hss, hts, rfl⟩ := archive_cons h
    rw [appendFiles, appendFile, hss, Option.bind_some, if_neg (List.cons_ne_nil _ _),
      List.length_append]
    by_cases hfits : sector + ss.length + 2 ≤ d.size
    · rw [if_pos hfits]
      change appendFiles (d.put sector (ss ++ archiveEnd)) (sector + ss.length) files = _
      rw [ih hts, put_size]
      split_ifs with hnil hfits' hfits' hfits'
      · obtain rfl : ts = [] := by
          rw [hnil] at hts
          exact (Option.some.inj hts).symm
        rw [List.append_nil]
        rfl
      · subst hnil
        obtain rfl : [] = ts := Option.some.inj hts
        exact absurd hfits (by simpa using hfits')
      · rw [put_over _ _ _ (by simp), List.append_assoc, Nat.add_assoc]
      · omega
      · omega
      · rfl
    · rw [if_neg hfits, if_neg (by omega)]
      rfl

/-! ### What is extracted -/

/-- The sectors `ss` are on the device, from `sector` on. -/
structure Scratch.Has (d : Scratch) (sector : ℕ) (ss : List Sector) : Prop where
  le : sector + ss.length ≤ d.size
  eq : run d.sectors sector ss.length = ss

theorem Scratch.Has.left {d : Scratch} {sector : ℕ} (ss : List Sector) {ts : List Sector}
    (h : d.Has sector (ss ++ ts)) : d.Has sector ss := by
  have hle := h.le
  have heq := h.eq
  rw [List.length_append] at hle
  rw [List.length_append, run_add] at heq
  exact ⟨by omega, (List.append_inj heq (length_run _ _ _)).1⟩

theorem Scratch.Has.right {d : Scratch} {sector : ℕ} (ss : List Sector) {ts : List Sector}
    (h : d.Has sector (ss ++ ts)) : d.Has (sector + ss.length) ts := by
  have hle := h.le
  have heq := h.eq
  rw [List.length_append] at hle
  rw [List.length_append, run_add] at heq
  exact ⟨by omega, (List.append_inj heq (length_run _ _ _)).2⟩

theorem Scratch.Has.read {d : Scratch} {sector : ℕ} {s : Sector} {ss : List Sector}
    (h : d.Has sector (s :: ss)) : d.read sector = some s ∧ d.Has (sector + 1) ss := by
  have hle := h.le
  have heq := (Scratch.Has.left [s] h).eq
  rw [List.length_cons] at hle
  rw [Scratch.read, if_pos (by omega)]
  exact ⟨congrArg some (List.cons.inj heq).1, Scratch.Has.right [s] h⟩

theorem has_put {d : Scratch} {sector : ℕ} {ss : List Sector} (h : sector + ss.length ≤ d.size) :
    (d.put sector ss).Has sector ss := ⟨h, run_overwrite _ _ _⟩

theorem slice_padded {bs : List UInt8} (h : bs.length ≤ 512) : slice (padded bs) 0 bs.length = bs := by
  rw [padded, slice_copyInto _ (Nat.le_refl _) (by omega), Nat.sub_self, slice, List.take_zero,
    List.append_nil]

/-- **The loop of `fsutil_extract`** writes the bytes that were appended. -/
theorem extractData_eq (dst : FilePtr) {d : Scratch} {sector : ℕ} {data : List UInt8}
    (h : d.Has sector (dataSectors data)) : extractData dst d sector data.length = (do
      putData dst data
      return sector + (dataSectors data).length) := by
  induction data using dataSectors.induct generalizing sector with
  | case1 =>
    rw [List.length_nil, extractData, if_pos rfl, dataSectors, if_pos rfl, putData, if_pos rfl]
    rfl
  | case2 data hdata ih =>
    rw [dataSectors, if_neg hdata] at h ⊢
    obtain ⟨hread, hrest⟩ := h.read
    have hchunk : min 512 data.length = (data.take 512).length := List.length_take.symm
    have hleft : data.length - (data.take 512).length = (data.drop 512).length := by
      rw [List.length_take, List.length_drop]
      omega
    rw [extractData, if_neg (fun hzero => hdata (List.length_eq_zero_iff.1 hzero)), hread, putData,
      if_neg hdata, hchunk, bind_assoc]
    dsimp only
    rw [nonNull_some, pure_bind, slice_padded (List.length_take_le _ _)]
    refine congrArg (onFiles (fileWrite dst (data.take 512)) >>= ·) (funext fun written => ?_)
    split_ifs with hwritten
    · rfl
    · rw [hleft, ih hrest, List.length_cons, Nat.add_assoc, Nat.add_comm 1]

/-- The header of a file is parsed as that of the file, unless its length is negative. -/
theorem parse_record {file : ArchivedFile} {ss : List Sector} (h : record file = some ss) :
    ∃ header, ss = header :: dataSectors file.data ∧ ustarParseHeader header =
      if file.size < 0 then .error "file too large"
      else .ok (some ⟨file.target, .regular, file.size⟩) := by
  obtain ⟨header, hheader, rfl⟩ := Option.map_eq_some_iff.1 h
  refine ⟨header, rfl, ?_⟩
  have hparse := (ustarParseHeader_make file.fileName.2 .regular file.size).2 header hheader
  simp only [true_and, if_true] at hparse
  exact hparse

/-- A round that finds the end. -/
theorem extractFiles_end (turns : ℕ) {d : Scratch} {sector : ℕ}
    (h : d.read sector = some Sector.zero) (rounds : ℕ) :
    extractFiles turns d (rounds + 1) sector = pure (sector + 1) := by
  rw [extractFiles, h, nonNull_some, pure_bind, ustarParseHeader_zero]
  rfl

/-- A round that finds a file puts it. -/
theorem extractFiles_file (turns : ℕ) {d : Scratch} {sector : ℕ} {header : Sector}
    {file : ArchivedFile} (rounds : ℕ) (h : d.read sector = some header)
    (hparse : ustarParseHeader header = if file.size < 0 then .error "file too large"
      else .ok (some ⟨file.target, .regular, file.size⟩))
    (hdata : d.Has (sector + 1) (dataSectors file.data)) :
    extractFiles turns d (rounds + 1) sector = (do
      putFile turns file
      extractFiles turns d rounds (sector + 1 + (dataSectors file.data).length)) := by
  rw [extractFiles, h, nonNull_some, pure_bind, hparse, putFile]
  split_ifs with hneg
  · rfl
  · have hnonneg : (0 : ℤ) ≤ file.size.toInt := by
      rw [Int32.lt_iff_toInt_lt] at hneg
      exact not_lt.1 hneg
    have hlength : (file.data.length : ℤ) = file.size.toInt := by
      rw [file.length_eq]
      exact Int.toNat_of_nonneg hnonneg
    simp only [Except.toOption, nonNull_some, pure_bind, bind_assoc]
    rw [← hlength]
    refine congrArg (filesysCreate turns file.target _ >>= ·) (funext fun created => ?_)
    split_ifs
    · rfl
    · simp only [bind_assoc]
      refine congrArg (filesysOpen turns file.target >>= ·) (funext fun opened => ?_)
      refine congrArg (nonNull opened >>= ·) (funext fun dst => ?_)
      rw [← file.length_eq, extractData_eq dst hdata, bind_assoc]
      rfl

/-- **The rounds of `fsutil_extract`** put the files that were appended. -/
theorem extractFiles_eq (turns : ℕ) {d : Scratch} {files : List ArchivedFile} {us : List Sector}
    (h : archive files = some us) {sector rounds : ℕ} (hd : d.Has sector (us ++ archiveEnd))
    (hrounds : files.length < rounds) : extractFiles turns d rounds sector = (do
      putFiles turns files
      return sector + us.length + 1) := by
  induction files generalizing us sector rounds with
  | nil =>
    obtain rfl : [] = us := Option.some.inj h
    obtain ⟨rounds, rfl⟩ := Nat.exists_eq_succ_of_ne_zero (Nat.ne_zero_of_lt hrounds)
    exact extractFiles_end turns hd.read.1 rounds
  | cons file files ih =>
    obtain ⟨ss, ts, hss, hts, rfl⟩ := archive_cons h
    obtain ⟨header, rfl, hparse⟩ := parse_record hss
    obtain ⟨rounds, rfl⟩ := Nat.exists_eq_succ_of_ne_zero (Nat.ne_zero_of_lt hrounds)
    rw [List.append_assoc, List.cons_append] at hd
    obtain ⟨hread, hrest⟩ := hd.read
    rw [extractFiles_file turns rounds hread hparse (hrest.left _), putFiles, bind_assoc,
      ih hts (hrest.right _) (Nat.lt_of_succ_lt_succ hrounds), List.length_append, List.length_cons]
    refine congrArg (putFile turns file >>= ·) (funext fun _ => ?_)
    refine congrArg (putFiles turns files >>= ·) (funext fun _ => congrArg pure ?_)
    omega

theorem length_archive {files : List ArchivedFile} {us : List Sector} (h : archive files = some us) :
    files.length ≤ us.length := by
  induction files generalizing us with
  | nil => exact Nat.zero_le _
  | cons file files ih =>
    obtain ⟨ss, ts, hss, hts, rfl⟩ := archive_cons h
    obtain ⟨header, rfl, -⟩ := parse_record hss
    have hle := ih hts
    rw [List.length_append, List.length_cons, List.length_cons]
    omega

/-- **`fsutil_extract`** puts the files of the archive, and erases its first two sectors. -/
theorem fsutilExtract_eq (turns : ℕ) {d : Scratch} (files : List ArchivedFile) {us : List Sector}
    (h : archive files = some us) (hd : d.Has 0 (us ++ archiveEnd)) :
    fsutilExtract turns d 0 = (do
      mallocBuffer
      mallocBuffer
      putFiles turns files
      return (d.put 0 archiveEnd, us.length + 1)) := by
  have hlength := length_archive h
  have hle := hd.le
  rw [List.length_append] at hle
  change 0 + (us.length + 2) ≤ d.size at hle
  unfold fsutilExtract
  rw [extractFiles_eq turns h hd (by omega), Nat.zero_add]
  simp only [bind_assoc, pure_bind]
  have hend := writeEnd_eq d 0 fun src => (return (src, us.length + 1) : DirKernel (Scratch × ℕ))
  rw [if_pos (by omega)] at hend
  rw [hend]

theorem archive_none_iff {files : List ArchivedFile} : archive files = none ↔
    ∃ file ∈ files, 99 < file.target.length := by
  induction files with
  | nil => simp [archive]
  | cons file files ih =>
    have hmake := (ustarParseHeader_make file.fileName.2 .regular file.size).1
    rw [List.exists_mem_cons_iff, ← ih, ArchivedFile.target, ← hmake, archive, record]
    cases ustarMakeHeader file.fileName .regular file.size with
    | none => exact iff_of_true rfl (.inl rfl)
    | some header => cases archive files <;> simp

/-- How many sectors a file takes. -/
def ArchivedFile.sectors (file : ArchivedFile) : ℕ := 1 + (file.data.length + 511) / 512

theorem length_archive_eq {files : List ArchivedFile} {us : List Sector}
    (h : archive files = some us) : us.length = (files.map ArchivedFile.sectors).sum := by
  induction files generalizing us with
  | nil =>
    obtain rfl : [] = us := Option.some.inj h
    rfl
  | cons file files ih =>
    obtain ⟨ss, ts, hss, hts, rfl⟩ := archive_cons h
    obtain ⟨header, rfl, -⟩ := parse_record hss
    rw [List.length_append, List.length_cons, length_dataSectors, ih hts, List.map_cons,
      List.sum_cons, ArchivedFile.sectors]
    omega

/-- The files that are read have the names that were asked for. -/
theorem readFiles_names (turns : ℕ) (fileNames : List FileName) (D : DirState) :
    Ensures (readFiles turns fileNames) D fun files _ =>
      files.map ArchivedFile.fileName = fileNames := by
  induction fileNames generalizing D with
  | nil => exact ensures_pure rfl
  | cons fileName fileNames ih =>
    refine Ensures.seq (P := fun file _ => file.fileName = fileName) ?_ fun file D₁ hname => ?_
    · intro file D' hrun
      unfold readFile at hrun
      obtain ⟨_, _, -, hrun⟩ := run_bind_cases hrun
      obtain ⟨_, _, -, hrun⟩ := run_bind_cases hrun
      obtain ⟨_, _, -, hrun⟩ := run_bind_cases hrun
      obtain ⟨_, _, -, hrun⟩ := run_bind_cases hrun
      obtain ⟨_, _, -, hrun⟩ := run_bind_cases hrun
      obtain ⟨_, _, -, hrun⟩ := run_bind_cases hrun
      cases hrun
      rfl
    · refine (ih D₁).seq fun files D₂ hnames => ensures_pure ?_
      rw [List.map_cons, hname, hnames]

/-- An archive that fits, or a name that is too long. -/
theorem appendFiles_isSome (d : Scratch) (file : ArchivedFile) (files : List ArchivedFile) :
    (appendFiles d 0 (file :: files)).isSome ↔
      (∀ f ∈ file :: files, f.target.length ≤ 99) ∧
        ((file :: files).map ArchivedFile.sectors).sum + 2 ≤ d.size := by
  have hnone : archive (file :: files) = none ↔ ∃ f ∈ file :: files, 99 < f.target.length :=
    archive_none_iff
  cases h : archive (file :: files) with
  | none =>
    obtain ⟨f, hf, hlong⟩ := hnone.1 h
    rw [appendFiles_none h]
    exact iff_of_false (by simp) fun hall => absurd (hall.1 f hf) (Nat.not_le.2 hlong)
  | some us =>
    have hshort : ∀ f ∈ file :: files, f.target.length ≤ 99 := fun f hf => Nat.not_lt.1 fun hlong => by
      rw [hnone.2 ⟨f, hf, hlong⟩] at h
      cases h
    rw [appendFiles_eq h, if_neg (List.cons_ne_nil _ _), ← length_archive_eq h, Nat.zero_add]
    split_ifs with hfits
    · exact iff_of_true rfl ⟨hshort, hfits⟩
    · exact iff_of_false (by simp) fun hall => hfits hall.2

/-- **Round trip.**  Files are appended to an archive of their own if and only if each can be read,
no name is too long and the device has room for all of them and the end.  Extracting it then makes
each of them, in this order, under its name without what leads out of the directory and with the
bytes that were read, or it panics where `filesys_create`, `filesys_open` or `file_write` refuses;
and extracting once more makes nothing. -/
theorem fsutil_round_trip (turns : ℕ) (d : Scratch) (fileName : FileName)
    (fileNames : List FileName) (D : DirState) :
    (Returns (appendAll turns d 0 (fileName :: fileNames)) D (fun _ _ => True) ↔
      Returns (readFiles turns (fileName :: fileNames)) D fun files _ =>
        (∀ f ∈ files, f.target.length ≤ 99) ∧ (files.map ArchivedFile.sectors).sum + 2 ≤ d.size) ∧
    Ensures (appendAll turns d 0 (fileName :: fileNames)) D fun r D' => ∃ files d'',
      (readFiles turns (fileName :: fileNames)).run D = some (files, D') ∧
      files.map ArchivedFile.fileName = fileName :: fileNames ∧
      fsutilExtract turns r.1 0 = (do
        mallocBuffer
        mallocBuffer
        putFiles turns files
        return (d'', r.2 + 1)) ∧
      fsutilExtract turns d'' 0 = (do
        mallocBuffer
        mallocBuffer
        return (d'', 1)) := by
  rw [appendAll_eq]
  constructor
  · constructor
    · rintro ⟨r, D', hrun, -⟩
      obtain ⟨files, D₁, hread, hrun⟩ := run_bind_cases hrun
      have hnames := readFiles_names turns _ D files D₁ hread
      obtain ⟨file, files, rfl, -⟩ := List.map_eq_cons_iff.1 hnames
      refine ⟨_, D₁, hread, (appendFiles_isSome d file files).1 ?_⟩
      cases happend : appendFiles d 0 (file :: files) with
      | none =>
        rw [happend] at hrun
        cases hrun
      | some r => rfl
    · rintro ⟨files, D', hread, hall⟩
      have hnames := readFiles_names turns _ D files D' hread
      obtain ⟨file, files, rfl, -⟩ := List.map_eq_cons_iff.1 hnames
      obtain ⟨r, happend⟩ := Option.isSome_iff_exists.1 ((appendFiles_isSome d file files).2 hall)
      refine ⟨r, D', ?_, trivial⟩
      rw [run_bind_of_run hread, happend]
      rfl
  · intro r D' hrun
    obtain ⟨files, D₁, hread, hrun⟩ := run_bind_cases hrun
    have hnames := readFiles_names turns _ D files D₁ hread
    obtain ⟨file, files, rfl, -⟩ := List.map_eq_cons_iff.1 hnames
    cases h : archive (file :: files) with
    | none =>
      rw [appendFiles_none h] at hrun
      cases hrun
    | some us =>
      rw [appendFiles_eq h, if_neg (List.cons_ne_nil _ _)] at hrun
      split_ifs at hrun with hfits
      · obtain ⟨rfl, rfl⟩ := Prod.mk.inj (Option.some.inj hrun)
        have hhas : (d.put 0 (us ++ archiveEnd)).Has 0 (us ++ archiveEnd) :=
          has_put (by rw [List.length_append]; change 0 + (us.length + 2) ≤ d.size; omega)
        refine ⟨_, (d.put 0 (us ++ archiveEnd)).put 0 archiveEnd, hread, hnames, ?_, ?_⟩
        · exact (fsutilExtract_eq turns _ h hhas).trans (by rw [Nat.zero_add])
        · have hend : ((d.put 0 (us ++ archiveEnd)).put 0 archiveEnd).Has 0 ([] ++ archiveEnd) :=
            has_put (by change 0 + 2 ≤ d.size; omega)
          have hover := put_over (d.put 0 (us ++ archiveEnd)) 0 [] (Nat.le_refl archiveEnd.length)
          refine (fsutilExtract_eq turns [] rfl hend).trans ?_
          change (do
            mallocBuffer
            mallocBuffer
            return (((d.put 0 (us ++ archiveEnd)).put 0 archiveEnd).put 0 archiveEnd, 1)) = _
          have heq : ((d.put 0 (us ++ archiveEnd)).put 0 archiveEnd).put 0 archiveEnd =
              (d.put 0 (us ++ archiveEnd)).put 0 archiveEnd := hover
          rw [heq]
      · cases hrun

end Filesys
end CS162

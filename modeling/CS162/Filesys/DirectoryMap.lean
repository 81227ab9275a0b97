/-
# Directories are finite maps

`projects1-3/src/filesys/directory.c`, lines 62-201, over an inode layer that does what
it is for: a read delivers the bytes that are there, a write within the file stores its
buffer, and a write past its end does so if there is room.

A directory's file is a table of slots of 20 bytes (`entries`).  `dir_add` puts an entry
into an empty slot or behind the last one, `dir_remove` empties a slot, and `dir_readdir`
is a cursor over them, so a directory is a map from names to sectors, and whoever reads
it is shown each name that stays in it once (`directory_isMap`).
-/

import CS162.Basis.SlotTable
import CS162.Filesys.Paths

namespace CS162
namespace Filesys

open CS162.Basis

/-- A string: its bytes before the null byte. -/
abbrev Str := {w : List UInt8 // (0 : UInt8) ∉ w}

/-- A directory: the bytes of its file, the `struct dir`s that are open on it, and the
inodes that `inode_remove` has been called for. -/
structure DirFile where
  bytes : List UInt8
  dirs : DirPtr → Dir
  removed : List BlockSector

namespace DirFile

/-! ### The inode layer -/

/-- `inode_read_at`. -/
def readAt (bytes : List UInt8) (size ofs : ℕ) : List UInt8 := (bytes.drop ofs).take size

/-- `inode_write_at`: the number of bytes written, and the bytes of the file. -/
def writeAt (room : Bool) (bytes buffer : List UInt8) (ofs : ℕ) : ℕ × List UInt8 :=
  if ofs + buffer.length ≤ bytes.length ∨ room = true ∧ ofs + buffer.length < 2 ^ 31 then
    (buffer.length, patch (bytes ++ List.replicate (ofs - bytes.length) 0) ofs buffer)
  else (0, bytes)

theorem length_readAt (bytes : List UInt8) (size ofs : ℕ) :
    (readAt bytes size ofs).length = min size (bytes.length - ofs) := by
  rw [readAt, List.length_take, List.length_drop]

theorem length_readAt_eq {bytes : List UInt8} {ofs : ℕ} :
    (readAt bytes 20 ofs).length = 20 ↔ ofs + 20 ≤ bytes.length := by
  rw [length_readAt]
  omega

/-! ### The calls -/

/-- The loop of `lookup`, from the offset `ofs` on: the entry and its offset. -/
def lookupFrom (bytes name : List UInt8) (ofs : ℕ) : Option (List UInt8 × ℕ) :=
  if h : (readAt bytes 20 ofs).length = 20 then
    if entryInUse (readAt bytes 20 ofs) ∧ entryName (readAt bytes 20 ofs) = name then
      some (readAt bytes 20 ofs, ofs)
    else lookupFrom bytes name (ofs + 20)
  else none
termination_by bytes.length - ofs
decreasing_by
  have := length_readAt_eq.1 h
  omega

/-- `lookup`. -/
def lookup (bytes name : List UInt8) : Option (List UInt8 × ℕ) := lookupFrom bytes name 0

/-- `dir_lookup`: the sector of the inode that it opens, if there is one. -/
def dirLookup (D : DirFile) (name : List UInt8) : Option BlockSector :=
  (lookup D.bytes name).map fun r => entrySector r.1

/-- The loop of `dir_add` that looks for a free slot: what it leaves in `e`, and `ofs`. -/
def freeSlot (bytes e : List UInt8) (ofs : ℕ) : List UInt8 × ℕ :=
  if h : (readAt bytes 20 ofs).length = 20 then
    if entryInUse (patch e 0 (readAt bytes 20 ofs)) then
      freeSlot bytes (patch e 0 (readAt bytes 20 ofs)) (ofs + 20)
    else (patch e 0 (readAt bytes 20 ofs), ofs)
  else (patch e 0 (readAt bytes 20 ofs), ofs)
termination_by bytes.length - ofs
decreasing_by
  have := length_readAt_eq.1 h
  omega

/-- The write of `dir_add`; `e` is what its buffer holds at first. -/
def addWrite (bytes e name : List UInt8) (sector : BlockSector) (room : Bool) : ℕ × List UInt8 :=
  writeAt room bytes (fillEntry (freeSlot bytes e 0).1 name sector) (freeSlot bytes e 0).2

/-- `dir_add`. -/
def dirAdd (D : DirFile) (d : DirPtr) (name : List UInt8) (sector : BlockSector)
    (e : List UInt8) (room : Bool) : Bool × DirFile :=
  if name = [] ∨ nameMax < name.length then (false, D)
  else if (lookup D.bytes name).isSome then (false, D)
  else
    let written := addWrite D.bytes e name sector room
    if written.1 = 20 then
      (true, { D with
        bytes := written.2
        dirs := Function.update D.dirs d
          { D.dirs d with numEntries := (D.dirs d).numEntries + 1 } })
    else (false, { D with bytes := written.2 })

/-- `dir_remove`. -/
def dirRemove (D : DirFile) (d : DirPtr) (name : List UInt8) (room : Bool) : Bool × DirFile :=
  match lookup D.bytes name with
  | none => (false, D)
  | some (e, ofs) =>
    let written := writeAt room D.bytes (patch e 19 [0]) ofs
    if written.1 = 20 then
      (true, { bytes := written.2
               dirs := Function.update D.dirs d
                 { D.dirs d with numEntries := (D.dirs d).numEntries - 1 }
               removed := entrySector e :: D.removed })
    else (false, { D with bytes := written.2 })

/-- The loop of `dir_readdir`: the name, and `pos` after it. -/
def readdirFrom (bytes : List UInt8) (pos : ℕ) : Option (List UInt8) × ℕ :=
  if h : (readAt bytes 20 pos).length = 20 then
    if entryInUse (readAt bytes 20 pos) ∧ entryName (readAt bytes 20 pos) ≠ [46] ∧
        entryName (readAt bytes 20 pos) ≠ [46, 46] then
      (some ((entryName (readAt bytes 20 pos)).take nameMax), pos + 20)
    else readdirFrom bytes (pos + 20)
  else (none, pos)
termination_by bytes.length - pos
decreasing_by
  have := length_readAt_eq.1 h
  omega

/-- `dir_readdir`: the name, if there is an entry left. -/
def dirReaddir (D : DirFile) (d : DirPtr) : Option (List UInt8) × DirFile :=
  let r := readdirFrom D.bytes (D.dirs d).pos.toNat
  (r.1, { D with dirs := Function.update D.dirs d { D.dirs d with pos := r.2 } })

end DirFile

/-- A call on a directory; `room` says whether its file can get longer, and `junk` is
what the buffer of `dir_add` holds at first. -/
inductive DirCall where
  /-- `dir_open`. -/
  | opened (d : DirPtr)
  /-- `dir_lookup`. -/
  | lookup (name : Str)
  /-- `dir_add`. -/
  | add (d : DirPtr) (name : Str) (sector : BlockSector) (junk : Fin 20 → UInt8) (room : Bool)
  /-- `dir_remove`. -/
  | remove (d : DirPtr) (name : Str) (room : Bool)
  /-- `dir_readdir`. -/
  | readdir (d : DirPtr)

/-- What a call returns. -/
inductive DirAnswer where
  | opened
  | found (sector : Option BlockSector)
  | done (ok : Bool)
  | shown (name : Option (List UInt8))

namespace DirFile

/-- One call. -/
def perform (D : DirFile) : DirCall → DirAnswer × DirFile
  | .opened d =>
    (.opened, { D with dirs := Function.update D.dirs d { D.dirs d with pos := 0, numEntries := 0 } })
  | .lookup name => (.found (dirLookup D name), D)
  | .add d name sector junk room =>
    let r := dirAdd D d name sector (List.ofFn junk) room
    (.done r.1, r.2)
  | .remove d name room =>
    let r := dirRemove D d name room
    (.done r.1, r.2)
  | .readdir d =>
    let r := dirReaddir D d
    (.shown r.1, r.2)

/-- Calls one after the other. -/
def performAll (D : DirFile) : List DirCall → DirFile
  | [] => D
  | c :: calls => (D.perform c).2.performAll calls

/-- What a call of `dir_readdir` on `d` returns. -/
def lists (d : DirPtr) (D : DirFile) : DirCall → List (Option (List UInt8))
  | .readdir d' => if d' = d then [(D.dirReaddir d').1] else []
  | _ => []

/-- What the calls of `dir_readdir` on `d` return, one after the other. -/
def listed (d : DirPtr) (D : DirFile) : List DirCall → List (Option (List UInt8))
  | [] => []
  | c :: calls => lists d D c ++ listed d (D.perform c).2 calls

/-! ### Entries -/

/-- The table of a directory's entries in use. -/
def entries (bytes : List UInt8) (i : ℕ) : Option (List UInt8) :=
  if (readAt bytes 20 (20 * i)).length = 20 ∧ entryInUse (readAt bytes 20 (20 * i)) then
    some (readAt bytes 20 (20 * i))
  else none

/-- The directory has the name, for the sector. -/
def Binds (D : DirFile) (name : List UInt8) (s : BlockSector) : Prop :=
  ∃ e, Held entryName (entries D.bytes) name e ∧ entrySector e = s

/-- The name is bound in every state of a run. -/
def StaysBound (name : List UInt8) (D : DirFile) : List DirCall → Prop
  | [] => ∃ s, D.Binds name s
  | c :: calls => (∃ s, D.Binds name s) ∧ StaysBound name (D.perform c).2 calls

/-- A new entry has a place: a slot of the file that is not in use, or one behind the last, if the
file can get longer. -/
def HasSlot (D : DirFile) (room : Bool) : Prop :=
  (∃ i, 20 * i + 20 ≤ D.bytes.length ∧ entries D.bytes i = none) ∨
    room = true ∧ 20 * (D.bytes.length / 20) + 20 < 2 ^ 31

/-- What a call should return and do. -/
def Spec (D : DirFile) (a : DirAnswer) (D' : DirFile) : DirCall → Prop
  | .opened _ => ∀ w s, D'.Binds w s ↔ D.Binds w s
  | .lookup name => ∃ r, a = .found r ∧ (∀ s, r = some s ↔ D.Binds name s) ∧ D' = D
  | .add _ name sector _ room => ∃ ok, a = .done ok ∧
      (ok = true ↔ 1 ≤ name.val.length ∧ name.val.length ≤ nameMax ∧ (∀ s, ¬D.Binds name s) ∧
        D.HasSlot room) ∧
      ∀ w s, D'.Binds w s ↔ ok = true ∧ w = name ∧ s = sector ∨ D.Binds w s
  | .remove _ name _ => ∃ ok, a = .done ok ∧ (ok = true ↔ ∃ s, D.Binds name s) ∧
      ∀ w s, D'.Binds w s ↔ w ≠ name ∧ D.Binds w s
  | .readdir _ => ∃ r, a = .shown r ∧ (∀ w, r = some w → ∃ s, D.Binds w s) ∧
      ∀ w s, D'.Binds w s ↔ D.Binds w s

section Entries

variable {bytes name e : List UInt8} {i j ofs : ℕ} {sector : BlockSector}

theorem entries_eq_some : entries bytes i = some e ↔
    e = readAt bytes 20 (20 * i) ∧ e.length = 20 ∧ entryInUse e = true := by
  unfold entries
  split_ifs with h
  · rw [Option.some.injEq]
    refine ⟨?_, fun he => he.1.symm⟩
    rintro rfl
    exact ⟨rfl, h⟩
  · refine iff_of_false (by simp) ?_
    rintro ⟨rfl, he⟩
    exact h he

theorem entries_eq_none (h : entryInUse (readAt bytes 20 (20 * i)) = false) : entries bytes i = none := by
  refine if_neg fun hand => ?_
  rw [h] at hand
  cases hand.2

/-- Behind the last slot. -/
theorem entries_end (h : bytes.length < 20 * i + 20) : entries bytes i = none := by
  refine if_neg fun hand => ?_
  have := length_readAt_eq.1 hand.1
  omega

/-- `lookup` finds an entry with the name, -/
theorem lookupFrom_some {r : List UInt8 × ℕ} (i : ℕ) (h : lookupFrom bytes name (20 * i) = some r) :
    ∃ j, r.2 = 20 * j ∧ entries bytes j = some r.1 ∧ entryName r.1 = name := by
  generalize hofs : 20 * i = ofs at h
  fun_induction lookupFrom bytes name ofs generalizing i with
  | case1 ofs hfull hmatch =>
    subst hofs
    obtain rfl := Option.some.inj h
    exact ⟨i, rfl, entries_eq_some.2 ⟨rfl, hfull, hmatch.1⟩, hmatch.2⟩
  | case2 ofs hfull hmatch ih => exact ih (i + 1) (by omega) h
  | case3 ofs hshort => cases h

/-- where there is one. -/
theorem lookupFrom_none (i : ℕ) (h : lookupFrom bytes name (20 * i) = none) :
    ∀ j e, i ≤ j → entries bytes j = some e → entryName e ≠ name := by
  generalize hofs : 20 * i = ofs at h
  fun_induction lookupFrom bytes name ofs generalizing i with
  | case1 ofs hfull hmatch => cases h
  | case2 ofs hfull hmatch ih =>
    intro j e hij he hname
    rcases hij.eq_or_lt with rfl | hlt
    · obtain ⟨rfl, -, huse⟩ := entries_eq_some.1 he
      rw [hofs] at huse hname
      exact hmatch ⟨huse, hname⟩
    · exact ih (i + 1) (by omega) h j e hlt he hname
  | case3 ofs hshort =>
    intro j e hij he _
    rw [length_readAt_eq] at hshort
    rw [entries_end (by omega)] at he
    cases he

theorem lookup_some {r : List UInt8 × ℕ} (h : lookup bytes name = some r) :
    ∃ j, r.2 = 20 * j ∧ entries bytes j = some r.1 ∧ entryName r.1 = name :=
  lookupFrom_some 0 h

theorem lookup_none (h : lookup bytes name = none) : ∀ e, ¬Held entryName (entries bytes) name e := by
  rintro e ⟨j, he, hname⟩
  exact lookupFrom_none 0 h j e (Nat.zero_le j) he hname

/-- `dir_add` finds the first slot that is free, in the file or right behind it. -/
theorem freeSlot_spec (bytes : List UInt8) (i : ℕ) (hi : 20 * i ≤ bytes.length)
    (he : e.length = 20) :
    ∃ j, (freeSlot bytes e (20 * i)).2 = 20 * j ∧ 20 * j ≤ bytes.length ∧
      (freeSlot bytes e (20 * i)).1.length = 20 ∧ entries bytes j = none ∧
      ∀ k, i ≤ k → k < j → entries bytes k ≠ none := by
  have hlen : ∀ {e ofs}, e.length = 20 → (patch e 0 (readAt bytes 20 ofs)).length = 20 := by
    intro e ofs he
    rw [patch_zero, List.length_append, List.length_drop, length_readAt, he]
    omega
  have hfull : ∀ {e ofs}, e.length = 20 → (readAt bytes 20 ofs).length = 20 →
      patch e 0 (readAt bytes 20 ofs) = readAt bytes 20 ofs := by
    intro e ofs he h
    rw [patch_zero, List.drop_eq_nil_of_le (by omega), List.append_nil]
  generalize hofs : 20 * i = ofs
  fun_induction freeSlot bytes e ofs generalizing i with
  | case1 e ofs h huse ih =>
    have := length_readAt_eq.1 h
    obtain ⟨j, hofs', hj, hlen', hfree, hused⟩ := ih (i + 1) (by omega) (hlen he) (by omega)
    refine ⟨j, hofs', hj, hlen', hfree, fun k hik hkj => ?_⟩
    rcases Nat.eq_or_lt_of_le hik with rfl | hlt
    · subst hofs
      rw [hfull he h] at huse
      rw [entries, if_pos ⟨h, huse⟩]
      exact Option.some_ne_none _
    · exact hused k hlt hkj
  | case2 e ofs h huse =>
    subst hofs
    rw [hfull he h, Bool.not_eq_true] at huse
    exact ⟨i, rfl, hi, hlen he, entries_eq_none huse, fun k hik hki => by omega⟩
  | case3 e ofs h =>
    subst hofs
    rw [length_readAt_eq] at h
    exact ⟨i, rfl, hi, hlen he, entries_end (by omega), fun k hik hki => by omega⟩

/-- **The new entry.** -/
theorem fillEntry_eq (he : e.length = 20) (hname : name.length ≤ nameMax) :
    fillEntry e name sector = leBytes sector ++ (name ++ 0 :: (e.take 19).drop (name.length + 5)) ++ [1] := by
  have hmax : nameMax = 14 := rfl
  have hused : patch e 19 [1] = e.take 19 ++ [1] := by
    rw [patch, List.drop_eq_nil_of_le (by rw [he]; simp), List.append_nil]
  have htake : (e.take 19).length = 19 := by
    rw [List.length_take]
    omega
  unfold fillEntry
  rw [hused, List.take_of_length_le hname, patch_zero, length_leBytes]
  unfold patch
  rw [List.length_append, List.length_singleton, List.append_assoc, List.drop_append_of_le_length
    (by rw [List.length_take, List.length_append, htake]; simp), List.drop_eq_nil_of_le
    (by rw [List.length_take]; omega), List.nil_append, List.drop_append_of_le_length (by omega)]
  simp only [List.append_assoc, List.cons_append, List.nil_append]
  rw [show 4 + (name.length + 1) = name.length + 5 by omega]

theorem entrySector_leBytes (rest : List UInt8) : entrySector (leBytes sector ++ rest) = sector := by
  have hholds : Holds (fun i => (leBytes sector).getD i 0) 0 (leBytes sector) := by
    intro i b hb
    show (leBytes sector).getD (0 + i) 0 = b
    rw [Nat.zero_add, List.getD_eq_getElem?_getD, hb, Option.getD_some]
  exact hholds.wordAt

/-- The entry that `dir_add` writes. -/
theorem fillEntry_spec (sector : BlockSector) (he : e.length = 20) (hname : name.length ≤ nameMax) (hzero : (0 : UInt8) ∉ name) :
    (fillEntry e name sector).length = 20 ∧ entryInUse (fillEntry e name sector) = true ∧
      entryName (fillEntry e name sector) = name ∧ entrySector (fillEntry e name sector) = sector := by
  have hmax : nameMax = 14 := rfl
  set middle := name ++ 0 :: (e.take 19).drop (name.length + 5) with hmiddle
  have hlen : middle.length = 15 := by
    rw [hmiddle, List.length_append, List.length_cons, List.length_drop, List.length_take]
    omega
  rw [fillEntry_eq he hname, ← hmiddle]
  refine ⟨?_, ?_, ?_, ?_⟩
  · rw [List.length_append, List.length_append, length_leBytes, hlen]
    rfl
  · unfold entryInUse
    rw [List.getD_eq_getElem?_getD, List.getElem?_append_right
      (by rw [List.length_append, length_leBytes, hlen]), List.length_append, length_leBytes, hlen]
    rfl
  · unfold entryName
    rw [List.append_assoc, List.drop_append_of_le_length (by rw [length_leBytes]),
      List.drop_eq_nil_of_le (by rw [length_leBytes]), List.nil_append, List.take_append_of_le_length
      (by rw [hlen]; simp [hmax]), List.take_of_length_le (by rw [hlen, hmax]), hmiddle,
      cString_append hzero]
  · rw [List.append_assoc]
    exact entrySector_leBytes _

/-- The entry that `dir_remove` writes. -/
theorem erased_spec (he : e.length = 20) :
    (patch e 19 [0]).length = 20 ∧ entryInUse (patch e 19 [0]) = false := by
  have hpatch : patch e 19 [0] = e.take 19 ++ [0] := by
    rw [patch, List.drop_eq_nil_of_le (by rw [he]; simp), List.append_nil]
  have htake : (e.take 19).length = 19 := by
    rw [List.length_take]
    omega
  rw [hpatch]
  refine ⟨by rw [List.length_append, htake]; rfl, ?_⟩
  unfold entryInUse
  rw [List.getD_eq_getElem?_getD, List.getElem?_append_right htake.le, htake]
  rfl

/-- What a write at a slot leaves in it and in the others. -/
theorem entries_patch {buffer : List UInt8} (hj : 20 * j ≤ bytes.length) (hlen : buffer.length = 20) :
    entries (patch bytes (20 * j) buffer) =
      Function.update (entries bytes) j (if entryInUse buffer then some buffer else none) := by
  have htake : (bytes.take (20 * j)).length = 20 * j := by
    rw [List.length_take]
    omega
  have hread : ∀ i, i ≠ j → readAt (patch bytes (20 * j) buffer) 20 (20 * i) =
      readAt bytes 20 (20 * i) := by
    intro i hij
    unfold readAt patch
    rcases Nat.lt_or_gt_of_ne hij with hlt | hgt
    · rw [List.append_assoc, List.drop_append_of_le_length (by omega), List.take_append_of_le_length
        (by rw [List.length_drop]; omega), List.drop_take, List.take_take]
      rw [Nat.min_eq_left (by omega)]
    · rw [List.drop_append, List.drop_eq_nil_of_le (by rw [List.length_append]; omega),
        List.nil_append, List.drop_drop, List.length_append, htake, hlen]
      congr 2
      omega
  have hself : readAt (patch bytes (20 * j) buffer) 20 (20 * j) = buffer := by
    unfold readAt patch
    rw [List.append_assoc, List.drop_append, List.drop_eq_nil_of_le htake.le, List.nil_append, htake,
      Nat.sub_self, List.drop_zero, List.take_append_of_le_length hlen.ge, List.take_of_length_le hlen.le]
  funext i
  by_cases hij : i = j
  · subst hij
    rw [Function.update_self]
    unfold entries
    rw [hself]
    simp only [hlen, true_and]
  · rw [Function.update_of_ne hij]
    unfold entries
    rw [hread i hij]

/-- A write at a slot of the file, or behind the last one. -/
theorem writeAt_slot {buffer : List UInt8} (room : Bool) (hj : 20 * j ≤ bytes.length)
    (hlen : buffer.length = 20) :
    writeAt room bytes buffer (20 * j) = (20, patch bytes (20 * j) buffer) ∨
      writeAt room bytes buffer (20 * j) = (0, bytes) := by
  unfold writeAt
  split_ifs with h
  · rw [Nat.sub_eq_zero_of_le hj, List.replicate_zero, List.append_nil, hlen]
    exact .inl rfl
  · exact .inr rfl

/-- `dir_readdir` is a cursor over the entries in use other than `.` and `..`. -/
theorem readdirFrom_shows (bytes : List UInt8) (i : ℕ) :
    ∃ r j, (readdirFrom bytes (20 * i)).2 = 20 * j ∧
      (readdirFrom bytes (20 * i)).1 = r.map (fun e => (entryName e).take nameMax) ∧
      Shows (fun e => entryName e ≠ [46] ∧ entryName e ≠ [46, 46]) (entries bytes) i r j := by
  generalize hofs : 20 * i = ofs
  fun_induction readdirFrom bytes ofs generalizing i with
  | case1 ofs h hmatch =>
    subst hofs
    exact ⟨some _, i + 1, by omega, rfl, .entry le_rfl (entries_eq_some.2 ⟨rfl, h, hmatch.1⟩) hmatch.2
      fun m y hm hm' => absurd hm' (Nat.not_lt.2 hm)⟩
  | case2 ofs h hmatch ih =>
    subst hofs
    obtain ⟨r, j, hpos, hr, hshows⟩ := ih (i + 1) (by omega)
    refine ⟨r, j, hpos, hr, ?_⟩
    have hhere : ∀ y, entries bytes i = some y → ¬(entryName y ≠ [46] ∧ entryName y ≠ [46, 46]) := by
      intro y hy hand
      obtain ⟨rfl, -, huse⟩ := entries_eq_some.1 hy
      exact hmatch ⟨huse, hand⟩
    exact hshows.back hhere
  | case3 ofs h =>
    subst hofs
    refine ⟨none, i, rfl, rfl, .last le_rfl fun m y hm hy => ?_⟩
    rw [length_readAt_eq] at h
    rw [entries_end (by omega)] at hy
    cases hy

end Entries

/-! ### What the calls do -/

/-- A directory without an entry in use. -/
structure New (D : DirFile) : Prop where
  empty : ∀ i, entries D.bytes i = none
  pos : ∀ d, ∃ i : ℕ, (D.dirs d).pos = (20 * i : ℕ)

/-- What every call preserves. -/
structure MapInv (D : DirFile) : Prop where
  keyed : Keyed entryName (entries D.bytes)
  short : ∀ i e, entries D.bytes i = some e → (entryName e).length ≤ nameMax
  pos : ∀ d, ∃ i : ℕ, (D.dirs d).pos = (20 * i : ℕ)

section Calls

variable {D D' : DirFile} {d : DirPtr} {name e w : List UInt8} {sector s : BlockSector} {room : Bool}

theorem New.inv (h : New D) : MapInv D where
  keyed i j x y hi _ _ := by
    rw [h.empty] at hi
    cases hi
  short i e hi := by
    rw [h.empty] at hi
    cases hi
  pos := h.pos

/-- A name that `lookup` does not find is not bound, -/
theorem not_binds_of_lookup (h : lookup D.bytes name = none) : ¬D.Binds name s := by
  rintro ⟨e, he, -⟩
  exact lookup_none h e he

/-- and one that it finds is. -/
theorem binds_of_lookup {r : List UInt8 × ℕ} (h : lookup D.bytes name = some r) :
    D.Binds name (entrySector r.1) := by
  obtain ⟨j, -, hj, hname⟩ := lookup_some h
  exact ⟨r.1, ⟨j, hj, hname⟩, rfl⟩

theorem MapInv.binds_unique (h : MapInv D) {s' : BlockSector} (hs : D.Binds name s)
    (hs' : D.Binds name s') : s = s' := by
  obtain ⟨e, he, rfl⟩ := hs
  obtain ⟨e', he', rfl⟩ := hs'
  rw [h.keyed.unique he he']

theorem binds_put {i : ℕ} {x : List UInt8} (hfree : entries D.bytes i = none)
    (hput : entries D'.bytes = Function.update (entries D.bytes) i (some x)) :
    D'.Binds w s ↔ w = entryName x ∧ s = entrySector x ∨ D.Binds w s := by
  unfold Binds
  rw [hput]
  simp only [held_put hfree]
  constructor
  · rintro ⟨e, ⟨rfl, rfl⟩ | he, rfl⟩
    · exact .inl ⟨rfl, rfl⟩
    · exact .inr ⟨e, he, rfl⟩
  · rintro (⟨rfl, rfl⟩ | ⟨e, he, rfl⟩)
    · exact ⟨x, .inl ⟨rfl, rfl⟩, rfl⟩
    · exact ⟨e, .inr he, rfl⟩

theorem MapInv.binds_clear (h : MapInv D) {i : ℕ} {x : List UInt8} (hx : entries D.bytes i = some x)
    (hclear : entries D'.bytes = Function.update (entries D.bytes) i none) :
    D'.Binds w s ↔ w ≠ entryName x ∧ D.Binds w s := by
  unfold Binds
  rw [hclear]
  simp only [held_clear h.keyed hx]
  constructor
  · rintro ⟨e, ⟨hw, he⟩, rfl⟩
    exact ⟨hw, e, he, rfl⟩
  · rintro ⟨hw, e, he, rfl⟩
    exact ⟨e, ⟨hw, he⟩, rfl⟩

/-- **The write of `dir_add`** is a whole entry if and only if there is a place for it. -/
theorem addWrite_iff (D : DirFile) (sector : BlockSector) (room : Bool)
    (hlen : name.length ≤ nameMax) (hname : (0 : UInt8) ∉ name) (he : e.length = 20) :
    (addWrite D.bytes e name sector room).1 = 20 ↔ D.HasSlot room := by
  obtain ⟨j, hofs, hj, hslot, hfree, hused⟩ := freeSlot_spec D.bytes 0 (Nat.zero_le _) he
  have hfill := (fillEntry_spec sector hslot hlen hname).1
  have hwrite : (addWrite D.bytes e name sector room).1 = 20 ↔
      20 * j + 20 ≤ D.bytes.length ∨ room = true ∧ 20 * j + 20 < 2 ^ 31 := by
    rw [addWrite, hofs, writeAt, hfill]
    split_ifs with h
    · exact iff_of_true rfl h
    · exact iff_of_false (by simp) h
  rw [hwrite]
  unfold HasSlot
  by_cases hin : 20 * j + 20 ≤ D.bytes.length
  · exact iff_of_true (.inl hin) (.inl ⟨j, hin, hfree⟩)
  · -- every slot of the file is in use, and `j` is the one behind them
    have hlast : j = D.bytes.length / 20 := by omega
    have hnone : ¬∃ i, 20 * i + 20 ≤ D.bytes.length ∧ entries D.bytes i = none := by
      rintro ⟨i, hi, hnone⟩
      exact hused i (Nat.zero_le i) (by omega) hnone
    rw [or_iff_right hin, or_iff_right hnone, hlast]

/-- **`dir_add`** changes nothing, or puts an entry into an empty slot. -/
theorem dirAdd_cases (D : DirFile) (d : DirPtr) (sector : BlockSector) (room : Bool)
    (hname : (0 : UInt8) ∉ name) (he : e.length = 20) :
    (D.dirAdd d name sector e room = (false, D) ∧ ¬(1 ≤ name.length ∧ name.length ≤ nameMax ∧
        (∀ s, ¬D.Binds name s) ∧ D.HasSlot room)) ∨
      ((D.dirAdd d name sector e room).1 = true ∧ 1 ≤ name.length ∧ name.length ≤ nameMax ∧
        (∀ x, ¬Held entryName (entries D.bytes) name x) ∧ D.HasSlot room ∧
        (∀ d', ((D.dirAdd d name sector e room).2.dirs d').pos = (D.dirs d').pos) ∧
        ∃ i x, entries D.bytes i = none ∧ entryName x = name ∧ entrySector x = sector ∧
          entries (D.dirAdd d name sector e room).2.bytes =
            Function.update (entries D.bytes) i (some x)) := by
  unfold dirAdd
  split_ifs with hbad hbound
  · refine .inl ⟨rfl, fun hand => ?_⟩
    rcases hbad with rfl | hlong
    · exact absurd hand.1 (by simp)
    · exact absurd hand.2.1 (Nat.not_le.2 hlong)
  · obtain ⟨r, hr⟩ := Option.isSome_iff_exists.1 hbound
    exact .inl ⟨rfl, fun hand => hand.2.2.1 _ (binds_of_lookup hr)⟩
  rw [not_or, Nat.not_lt] at hbad
  obtain ⟨j, hofs, hj, hlen, hfree, -⟩ := freeSlot_spec D.bytes 0 (Nat.zero_le _) he
  obtain ⟨hfill, huse, hentry, hsector⟩ := fillEntry_spec sector hlen hbad.2 hname
  have hslot := addWrite_iff D sector room hbad.2 hname he
  have hwrite : addWrite D.bytes e name sector room = writeAt room D.bytes
      (fillEntry (freeSlot D.bytes e 0).1 name sector) (20 * j) := by
    rw [addWrite, hofs]
  dsimp only
  rw [← hslot, hwrite]
  rcases writeAt_slot room hj hfill with hok | hno
  · rw [hok, if_pos rfl]
    refine .inr ⟨rfl, List.length_pos_iff.2 hbad.1, hbad.2, lookup_none (by simpa using hbound), rfl,
      fun d' => ?_, j, _, hfree, hentry, hsector, ?_⟩
    · dsimp only
      by_cases hd : d' = d
      · subst hd
        rw [Function.update_self]
      · rw [Function.update_of_ne hd]
    · dsimp only
      rw [entries_patch hj hfill, if_pos huse]
  · rw [hno, if_neg (by simp)]
    exact .inl ⟨rfl, fun hand => absurd hand.2.2.2 (by simp)⟩

/-- **`dir_remove`** changes nothing, or empties a slot. -/
theorem dirRemove_cases (D : DirFile) (d : DirPtr) (name : List UInt8) (room : Bool) :
    (D.dirRemove d name room = (false, D) ∧ ∀ s, ¬D.Binds name s) ∨
      ((D.dirRemove d name room).1 = true ∧
        (∀ d', ((D.dirRemove d name room).2.dirs d').pos = (D.dirs d').pos) ∧
        ∃ i x, entries D.bytes i = some x ∧ entryName x = name ∧
          entries (D.dirRemove d name room).2.bytes = Function.update (entries D.bytes) i none) := by
  unfold dirRemove
  cases hfound : lookup D.bytes name with
  | none => exact .inl ⟨rfl, fun s => not_binds_of_lookup hfound⟩
  | some r =>
    obtain ⟨x, ofs⟩ := r
    obtain ⟨j, rfl, hj, hname⟩ := lookup_some hfound
    obtain ⟨hread, hfull, -⟩ := entries_eq_some.1 hj
    have hin : 20 * j + 20 ≤ D.bytes.length := by
      rw [hread] at hfull
      exact length_readAt_eq.1 hfull
    obtain ⟨hlen, huse⟩ := erased_spec hfull
    have hwrite : writeAt room D.bytes (patch x 19 [0]) (20 * j) =
        (20, patch D.bytes (20 * j) (patch x 19 [0])) := by
      have hj' : 20 * j ≤ D.bytes.length := by omega
      rcases writeAt_slot room hj' hlen with hok | hno
      · exact hok
      · unfold writeAt at hno
        rw [if_pos (.inl (by omega)), hlen] at hno
        exact absurd (congrArg Prod.fst hno) (by simp)
    dsimp only
    rw [hwrite, if_pos rfl]
    refine .inr ⟨rfl, fun d' => ?_, j, x, hj, hname, ?_⟩
    · dsimp only
      by_cases hd : d' = d
      · subst hd
        rw [Function.update_self]
      · rw [Function.update_of_ne hd]
    · dsimp only
      rw [entries_patch (by omega) hlen, if_neg (by simp [huse])]

/-- **`dir_readdir`** moves the cursor of its directory. -/
theorem MapInv.readdir_shows (h : MapInv D) {i : ℕ} (hi : (D.dirs d).pos = (20 * i : ℕ)) :
    ∃ r j, ((D.dirReaddir d).2.dirs d).pos = (20 * j : ℕ) ∧ (D.dirReaddir d).1 = r.map entryName ∧
      Shows (fun e => entryName e ≠ [46] ∧ entryName e ≠ [46, 46]) (entries D.bytes) i r j := by
  obtain ⟨r, j, hpos, hr, hshows⟩ := readdirFrom_shows D.bytes i
  have hstart : (D.dirs d).pos.toNat = 20 * i := by
    rw [hi]
    rfl
  unfold dirReaddir
  dsimp only
  rw [hstart, Function.update_self]
  refine ⟨r, j, by rw [hpos], ?_, hshows⟩
  rw [hr]
  cases hshows with
  | @entry m x _ here _ _ => exact congrArg some (List.take_of_length_le (h.short m x here))
  | last => rfl

/-- The table after a call. -/
theorem perform_changes (D : DirFile) (c : DirCall) :
    Changes entryName (entries D.bytes) (entries (D.perform c).2.bytes) := by
  cases c with
  | opened d => exact .same
  | lookup name => exact .same
  | readdir d => exact .same
  | add d name sector junk room =>
    show Changes _ _ (entries (D.dirAdd d name sector (List.ofFn junk) room).2.bytes)
    rcases dirAdd_cases D d sector room name.2 (List.length_ofFn (f := junk)) with ⟨hsame, -⟩ |
      ⟨-, -, -, hnew, -, -, i, x, hfree, hname, -, hput⟩
    · rw [hsame]
      exact .same
    · rw [hput]
      exact .put hfree (hname ▸ hnew)
  | remove d name room =>
    show Changes _ _ (entries (D.dirRemove d name room).2.bytes)
    rcases dirRemove_cases D d name.1 room with ⟨hsame, -⟩ |
      ⟨-, -, i, x, hx, -, hclear⟩
    · rw [hsame]
      exact .same
    · rw [hclear]
      exact .clear hx

/-- Only `dir_open` and `dir_readdir` move a cursor. -/
theorem perform_pos {c : DirCall} (hopen : c ≠ .opened d) (hread : c ≠ .readdir d) :
    ((D.perform c).2.dirs d).pos = (D.dirs d).pos := by
  cases c with
  | opened d' =>
    have hd : d ≠ d' := fun he => hopen (he ▸ rfl)
    show (Function.update D.dirs d' _ d).pos = _
    rw [Function.update_of_ne hd]
  | lookup name => rfl
  | readdir d' =>
    have hd : d ≠ d' := fun he => hread (he ▸ rfl)
    show (Function.update D.dirs d' _ d).pos = _
    rw [Function.update_of_ne hd]
  | add d' name sector junk room =>
    show ((D.dirAdd d' name sector (List.ofFn junk) room).2.dirs d).pos = _
    rcases dirAdd_cases D d' sector room name.2 (List.length_ofFn (f := junk)) with ⟨hsame, -⟩ |
      ⟨-, -, -, -, -, hpos, -⟩
    · rw [hsame]
    · exact hpos d
  | remove d' name room =>
    show ((D.dirRemove d' name room).2.dirs d).pos = _
    rcases dirRemove_cases D d' name.1 room with ⟨hsame, -⟩ |
      ⟨-, hpos, -⟩
    · rw [hsame]
    · exact hpos d

/-- **One call** keeps the invariant. -/
theorem MapInv.step (h : MapInv D) (c : DirCall) : MapInv (D.perform c).2 := by
  have hchanges := perform_changes D c
  refine ⟨hchanges.keyed h.keyed, fun i x hx => ?_, fun d => ?_⟩
  · cases c with
    | add d name sector junk room =>
      rw [show (D.perform (.add d name sector junk room)).2 =
        (D.dirAdd d name sector (List.ofFn junk) room).2 from rfl] at hx
      rcases dirAdd_cases D d sector room name.2 (List.length_ofFn (f := junk)) with ⟨hsame, -⟩ |
        ⟨-, -, hlen, -, -, -, j, y, -, hname, -, hput⟩
      · rw [hsame] at hx
        exact h.short i x hx
      · rw [hput] at hx
        by_cases hij : i = j
        · subst hij
          rw [Function.update_self] at hx
          obtain rfl := Option.some.inj hx
          rw [hname]
          exact hlen
        · rw [Function.update_of_ne hij] at hx
          exact h.short i x hx
    | remove d name room =>
      rw [show (D.perform (.remove d name room)).2 = (D.dirRemove d name room).2 from rfl] at hx
      rcases dirRemove_cases D d name.1 room with ⟨hsame, -⟩ |
        ⟨-, -, j, y, -, -, hclear⟩
      · rw [hsame] at hx
        exact h.short i x hx
      · rw [hclear] at hx
        by_cases hij : i = j
        · subst hij
          rw [Function.update_self] at hx
          cases hx
        · rw [Function.update_of_ne hij] at hx
          exact h.short i x hx
    | _ => exact h.short i x hx
  · by_cases hopen : c = .opened d
    · subst hopen
      refine ⟨0, ?_⟩
      show (Function.update D.dirs d _ d).pos = _
      rw [Function.update_self]
      rfl
    by_cases hread : c = .readdir d
    · subst hread
      obtain ⟨i, hi⟩ := h.pos d
      obtain ⟨r, j, hpos, -, -⟩ := h.readdir_shows hi
      exact ⟨j, hpos⟩
    · rw [perform_pos hopen hread]
      exact h.pos d

/-- **One call** returns and does what it should. -/
theorem MapInv.spec (h : MapInv D) (c : DirCall) : Spec D (D.perform c).1 (D.perform c).2 c := by
  cases c with
  | opened d => exact fun w s => Iff.rfl
  | lookup name =>
    refine ⟨_, rfl, fun s => ?_, rfl⟩
    unfold dirLookup
    cases hfound : lookup D.bytes name with
    | none => exact iff_of_false (by simp) (not_binds_of_lookup hfound)
    | some r =>
      have hbound := binds_of_lookup hfound
      rw [Option.map_some, Option.some.injEq]
      exact ⟨fun he => he ▸ hbound, fun hs => h.binds_unique hbound hs⟩
  | readdir d =>
    obtain ⟨i, hi⟩ := h.pos d
    obtain ⟨r, j, -, hr, hshows⟩ := h.readdir_shows hi
    refine ⟨_, rfl, fun w hw => ?_, fun w s => Iff.rfl⟩
    rw [hr] at hw
    cases hshows with
    | @entry m x _ here _ _ =>
      obtain rfl := Option.some.inj hw
      exact ⟨_, x, ⟨m, here, rfl⟩, rfl⟩
    | last => cases hw
  | add d name sector junk room =>
    refine ⟨_, rfl, ?_⟩
    show _ ∧ ∀ w s, (D.dirAdd d name sector (List.ofFn junk) room).2.Binds w s ↔ _
    rcases dirAdd_cases D d sector room name.2 (List.length_ofFn (f := junk)) with ⟨hsame, hno⟩ |
      ⟨hok, hpos, hlen, hnew, hwrote, -, i, x, hfree, hname, hsector, hput⟩
    · rw [hsame]
      exact ⟨iff_of_false (by simp) hno, fun w s => ⟨.inr, fun hor => hor.resolve_left (by simp)⟩⟩
    · rw [hok]
      refine ⟨iff_of_true rfl ⟨hpos, hlen, ?_, hwrote⟩, fun w s => ?_⟩
      · rintro s ⟨e, he, -⟩
        exact hnew e he
      · rw [binds_put hfree hput, hname, hsector]
        simp only [true_and]
  | remove d name room =>
    refine ⟨_, rfl, ?_⟩
    show _ ∧ ∀ w s, (D.dirRemove d name room).2.Binds w s ↔ _
    rcases dirRemove_cases D d name.1 room with ⟨hsame, hno⟩ |
      ⟨hok, -, i, x, hx, hname, hclear⟩
    · rw [hsame]
      refine ⟨iff_of_false (by simp) fun ⟨s, hs⟩ => hno s hs, fun w s => ⟨fun hs => ⟨?_, hs⟩, And.right⟩⟩
      rintro rfl
      exact hno s hs
    · rw [hok]
      refine ⟨iff_of_true rfl ⟨_, x, ⟨i, hx, hname⟩, rfl⟩, fun w s => ?_⟩
      rw [h.binds_clear hx hclear, hname]

end Calls

/-! ### Runs -/

theorem MapInv.run {D : DirFile} (h : MapInv D) (calls : List DirCall) : MapInv (D.performAll calls) := by
  induction calls generalizing D with
  | nil => exact h
  | cons c calls ih => exact ih (h.step c)

/-- **A name that stays is listed when the cursor passes its slot.**  By induction on the calls. -/
theorem MapInv.listed_count {w e : List UInt8} {s : ℕ} {d : DirPtr}
    (hw : w ≠ [46] ∧ w ≠ [46, 46]) (hname : entryName e = w) (calls : List DirCall) :
    ∀ {D : DirFile} {i : ℕ}, MapInv D → entries D.bytes s = some e → (D.dirs d).pos = (20 * i : ℕ) →
      D.StaysBound w calls → .opened d ∉ calls →
      ∃ j, i ≤ j ∧ (if s < j then 1 else 0) =
          (if s < i then 1 else 0) + (listed d D calls).count (some w) ∧
        (none ∈ listed d D calls → s < j) := by
  induction calls with
  | nil =>
    intro D i _ _ _ _ _
    exact ⟨i, le_rfl, rfl, fun hnone => by cases hnone⟩
  | cons c calls ih =>
    intro D i h hs hi hstays hopen
    obtain ⟨-, hstays'⟩ := hstays
    rw [List.mem_cons, not_or] at hopen
    obtain ⟨b, x, hx, -⟩ : ∃ b, (D.perform c).2.Binds w b := by
      cases calls with
      | nil => exact hstays'
      | cons _ _ => exact hstays'.1
    have hs' : entries (D.perform c).2.bytes s = some e :=
      (perform_changes D c).stays h.keyed hs (hname ▸ hx)
    have hskip : ∀ {i'}, ((D.perform c).2.dirs d).pos = (20 * i' : ℕ) → _ :=
      fun hi' => ih (h.step c) hs' hi' hstays' hopen.2
    unfold listed
    by_cases hread : c = .readdir d
    · subst hread
      obtain ⟨r, j, hj, hr, hshows⟩ := h.readdir_shows hi
      obtain ⟨k, hjk, hcount, hend⟩ := hskip hj
      have hhead := hshows.count h.keyed hs (hname ▸ hw)
      have hlists : lists d D (.readdir d) = [r.map entryName] := by
        rw [lists, if_pos rfl, hr]
      rw [hlists]
      refine ⟨k, hshows.le.trans hjk, ?_, fun hnone => ?_⟩
      · rw [hcount, hhead, hname, List.singleton_append, List.count_cons]
        simp only [beq_iff_eq]
        omega
      · rcases List.mem_append.1 hnone with hnow | hlater
        · cases r with
          | some x => simp at hnow
          | none => exact (hshows.passed hs (hname ▸ hw)).trans_le hjk
        · exact hend hlater
    · have hlists : lists d D c = [] := by
        cases c with
        | readdir d' =>
          have hd : d' ≠ d := fun he => hread (he ▸ rfl)
          exact if_neg hd
        | _ => rfl
      rw [hlists]
      exact hskip ((perform_pos (Ne.symm hopen.1) hread).trans hi)

/-- **A directory is a finite map from names to sectors.**  In every state that calls on an empty
directory lead to no name is in two entries, every call does to the map what it should, and of the
names that stay bound a cursor that starts at `0` shows each once, `.` and `..` apart. -/
theorem directory_isMap {D₀ : DirFile} (hnew : D₀.New) (calls : List DirCall) :
    Keyed entryName (entries (D₀.performAll calls).bytes) ∧
      (∀ c, Spec (D₀.performAll calls) ((D₀.performAll calls).perform c).1
        ((D₀.performAll calls).perform c).2 c) ∧
      ∀ d w later, ((D₀.performAll calls).dirs d).pos = 0 → w ≠ [46] → w ≠ [46, 46] →
        (D₀.performAll calls).StaysBound w later → .opened d ∉ later →
        (listed d (D₀.performAll calls) later).count (some w) ≤ 1 ∧
          (none ∈ listed d (D₀.performAll calls) later →
            (listed d (D₀.performAll calls) later).count (some w) = 1) := by
  have h := hnew.inv.run calls
  refine ⟨h.keyed, h.spec, fun d w later hpos hdot hdots hstays hopen => ?_⟩
  obtain ⟨b, x, ⟨s, hs, hname⟩, -⟩ : ∃ b, (D₀.performAll calls).Binds w b := by
    cases later with
    | nil => exact hstays
    | cons _ _ => exact hstays.1
  obtain ⟨j, -, hcount, hend⟩ :=
    h.listed_count ⟨hdot, hdots⟩ hname later hs (i := 0) hpos hstays hopen
  rw [if_neg (Nat.not_lt_zero s), Nat.zero_add] at hcount
  refine ⟨?_, fun hnone => ?_⟩
  · rw [← hcount]
    split_ifs <;> omega
  · rw [← hcount, if_pos (hend hnone)]

/-- An empty file, and no `struct dir` that has read anything. -/
def emptyDir : DirFile := ⟨[], fun _ => ⟨0, 0, 0⟩, []⟩

theorem emptyDir_new : emptyDir.New where
  empty i := entries_end (show 0 < 20 * i + 20 by omega)
  pos _ := ⟨0, rfl⟩

/-- `a` is added twice and listed, and `b` is added and removed. -/
def twoNames : List DirCall :=
  [.add 1 ⟨[97], by decide⟩ 5 (fun _ => 7) true, .add 1 ⟨[98], by decide⟩ 6 (fun _ => 7) true,
    .add 2 ⟨[97], by decide⟩ 9 (fun _ => 0) true, .readdir 1, .remove 2 ⟨[98], by decide⟩ true]

/-- After these calls `a` is bound to the sector of the first, and `b` to none. -/
theorem directory_isMap_twoNames :
    Keyed entryName (entries (emptyDir.performAll twoNames).bytes) ∧
      (∀ s, (emptyDir.performAll twoNames).Binds [97] s ↔ s = 5) ∧
      ∀ s, ¬(emptyDir.performAll twoNames).Binds [98] s := by
  obtain ⟨hkeyed, hspec, -⟩ := directory_isMap emptyDir_new twoNames
  obtain ⟨a, hfound, ha, -⟩ := hspec (.lookup ⟨[97], by decide⟩)
  obtain ⟨b, hmissing, hb, -⟩ := hspec (.lookup ⟨[98], by decide⟩)
  have hfive : (emptyDir.performAll twoNames).dirLookup [97] = some 5 := by decide +kernel
  have hnone : (emptyDir.performAll twoNames).dirLookup [98] = none := by decide +kernel
  obtain rfl : _ = a := DirAnswer.found.inj hfound
  obtain rfl : _ = b := DirAnswer.found.inj hmissing
  refine ⟨hkeyed, fun s => ?_, fun s hs => ?_⟩
  · rw [← ha s, hfive, Option.some_inj, eq_comm]
  · cases hnone.symm.trans ((hb s).2 hs)

end DirFile
end Filesys
end CS162

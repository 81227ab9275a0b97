/-
# The on-disk inode

`projects1-3/src/filesys/inode.c`, lines 153-235: `struct inode_disk`,
`bytes_to_sectors`, and the index path `byte_to_sector` follows.

`struct inode_disk` fills one sector: entries `0` to `11` of its word array are
`direct`, then come `indirect`, `doubly_indirect`, `length` and `magic`, and
`is_dir` is the byte at offset `64`.  `byte_to_sector` and `allocate_blocks`
read the same sector in both ways, so an inode is kept as its sector and the
fields are views of it.

`off_t` is `int32_t`: its values are integers, and sums that may leave the range
are wrapped.
-/

import Mathlib.Tactic.Ring
import CS162.Filesys.Sector

namespace CS162
namespace Filesys

/-! ### `off_t` -/

/-- `off_t`. -/
abbrev Off := ℤ

/-- The value an `int32_t` operation leaves. -/
def wrap32 (x : ℤ) : Off := Int.bmod x (2 ^ 32)

/-- An `off_t` stored in a word. -/
def wordOfOff (x : Off) : UInt32 := UInt32.ofNat (x % 2 ^ 32).toNat

/-- A word read as an `off_t`. -/
def offOfWord (w : UInt32) : Off := Int.bmod w.toNat (2 ^ 32)

theorem wrap32_of_lt {n : ℕ} (h : n < 2 ^ 31) : wrap32 n = n := by
  unfold wrap32
  rw [Int.bmod_eq_of_le] <;> omega

/-- An `off_t` that was stored reads back. -/
theorem offOfWord_wordOfOff {n : ℕ} (h : n < 2 ^ 31) : offOfWord (wordOfOff n) = n := by
  have hmod : ((n : ℤ) % 2 ^ 32).toNat = n := by omega
  unfold offOfWord wordOfOff
  rw [hmod, UInt32.toNat_ofNat', Nat.mod_eq_of_lt (by omega)]
  exact wrap32_of_lt h

/-- A word that was read as an `off_t` is stored as it was. -/
theorem wordOfOff_offOfWord (w : UInt32) : wordOfOff (offOfWord w) = w := by
  have hw : w.toNat < 2 ^ 32 := w.toNat_lt
  have hmod : (Int.bmod w.toNat (2 ^ 32) % 2 ^ 32).toNat = w.toNat := by
    have := Int.bmod_emod (x := (w.toNat : ℤ)) (m := 2 ^ 32)
    omega
  unfold wordOfOff offOfWord
  rw [hmod, UInt32.ofNat_toNat]

/-- `bytes_to_sectors`: `DIV_ROUND_UP (size, BLOCK_SECTOR_SIZE)` in `int`, turned
into a `size_t`. -/
def bytesToSectors (size : Off) : ℕ := ((wrap32 (size + 511)).tdiv 512 % 2 ^ 32).toNat

theorem bytesToSectors_of_lt {n : ℕ} (h : n + 511 < 2 ^ 31) :
    bytesToSectors n = (n + 511) / 512 := by
  have hwrap : wrap32 ((n : ℤ) + 511) = ((n + 511 : ℕ) : ℤ) := by
    have := wrap32_of_lt h
    push_cast at this ⊢
    exact this
  unfold bytesToSectors
  rw [hwrap, Int.tdiv_eq_ediv_of_nonneg (Int.natCast_nonneg _)]
  omega

/-! ### `struct inode_disk` -/

/-- `DIRECT_BLOCKS`. -/
def directBlocks : ℕ := 12

/-- `INDIRECT_BLOCKS`, the entries of an index block. -/
def indirectBlocks : ℕ := 128

/-- `INODE_MAGIC`. -/
def inodeMagic : UInt32 := 0x494e4f44

namespace Sector

/-- `indirect`. -/
def indirect (d : Sector) : BlockSector := d.word 12

/-- `doubly_indirect`. -/
def doublyIndirect (d : Sector) : BlockSector := d.word 13

/-- `length`. -/
def length (d : Sector) : Off := offOfWord (d.word 14)

/-- `is_dir`. -/
def isDir (d : Sector) : Bool := d 64 != 0

def setIndirect (d : Sector) (s : BlockSector) : Sector := d.setWord 12 s

def setDoublyIndirect (d : Sector) (s : BlockSector) : Sector := d.setWord 13 s

def setLength (d : Sector) (length : Off) : Sector := d.setWord 14 (wordOfOff length)

def setMagic (d : Sector) (magic : UInt32) : Sector := d.setWord 15 magic

def setIsDir (d : Sector) (b : Bool) : Sector := Function.update d 64 (if b then 1 else 0)

theorem length_setLength (d : Sector) {n : ℕ} (h : n < 2 ^ 31) : (d.setLength n).length = n := by
  unfold length setLength
  rw [word_setWord_self]
  exact offOfWord_wordOfOff h

/-- Setting `length` to what it is changes no byte. -/
theorem setLength_length (d : Sector) : d.setLength d.length = d := by
  unfold length setLength
  rw [wordOfOff_offOfWord, setWord_word]

theorem word_setLength (d : Sector) (length : Off) {i : Fin 128} (h : i.val < 14) :
    (d.setLength length).word i = d.word i := by
  refine word_setWord_of_ne _ ?_ _
  rintro rfl
  exact absurd h (by decide)

theorem setLength_tail (d : Sector) (length : Off) {j : Fin 512} (h : 60 ≤ j.val) :
    d.setLength length j = d j := by
  unfold setLength setWord
  rw [if_neg]
  show ¬j.val / 4 = 14
  omega

/-- `length` is in the bytes from `56` on. -/
theorem length_congr {d d' : Sector} (h : ∀ j : Fin 512, 56 ≤ j.val → d j = d' j) :
    d.length = d'.length := by
  have hbyte : ∀ o : Fin 4, d.wordByte 14 o = d'.wordByte 14 o := fun o =>
    congrArg UInt8.toNat (h _ (by show 56 ≤ 4 * 14 + o.val; omega))
  unfold length word
  rw [hbyte 0, hbyte 1, hbyte 2, hbyte 3]

end Sector

/-- A `struct inode_disk` as `inode_create` and `inode_create_dir` fill it in
before `allocate_blocks`. -/
def newInodeDisk (length : Off) (isDir : Bool) : Sector :=
  ((Sector.zero.setLength length).setMagic inodeMagic).setIsDir isDir

theorem Sector.word_setIsDir (d : Sector) (b : Bool) {i : Fin 128} (h : i.val < 16) :
    (d.setIsDir b).word i = d.word i := by
  have hbyte : ∀ o : Fin 4, (d.setIsDir b).wordByte i o = d.wordByte i o := by
    intro o
    refine congrArg UInt8.toNat (Function.update_of_ne ?_ _ _)
    rw [Ne, Fin.ext_iff]
    show ¬4 * i.val + o.val = 64
    omega
  unfold word
  rw [hbyte 0, hbyte 1, hbyte 2, hbyte 3]

/-- No block is allocated. -/
theorem word_newInodeDisk (length : Off) (isDir : Bool) {i : Fin 128} (h : i.val < 14) :
    (newInodeDisk length isDir).word i = 0 := by
  unfold newInodeDisk
  rw [Sector.word_setIsDir _ _ (by omega), Sector.setMagic, Sector.word_setWord_of_ne,
    Sector.word_setLength _ _ h, Sector.word_zero]
  rintro rfl
  exact absurd h (by decide)

theorem length_newInodeDisk {n : ℕ} (isDir : Bool) (h : n < 2 ^ 31) :
    (newInodeDisk n isDir).length = n := by
  have hword : (newInodeDisk n isDir).word 14 = wordOfOff n := by
    unfold newInodeDisk
    rw [Sector.word_setIsDir _ _ (by decide), Sector.setMagic,
      Sector.word_setWord_of_ne _ (by decide), Sector.setLength, Sector.word_setWord_self]
  rw [Sector.length, hword]
  exact offOfWord_wordOfOff h

theorem isDir_newInodeDisk (length : Off) (isDir : Bool) :
    (newInodeDisk length isDir).isDir = isDir := by
  unfold newInodeDisk Sector.isDir Sector.setIsDir
  rw [Function.update_self]
  cases isDir <;> rfl

/-- The indices of `direct`. -/
def directIndices : List (Fin 128) := (List.finRange 12).map (Fin.castLE (by decide))

/-- The index path of `byte_to_sector`: the sector of block `sectorIndex` of the
inode at `root`; `none` when the path leaves an index block. -/
def indexPath (store : BlockSector → Sector) (root : BlockSector) (sectorIndex : ℕ) :
    Option BlockSector :=
  let blockBuffer := store root
  if h : sectorIndex < directBlocks then
    some (blockBuffer.word ⟨sectorIndex, h.trans (by decide)⟩)
  else if h : sectorIndex < directBlocks + indirectBlocks then
    some ((store blockBuffer.indirect).word ⟨sectorIndex - directBlocks, by
      unfold directBlocks indirectBlocks at *
      omega⟩)
  else
    let doubleIndex := sectorIndex - (directBlocks + indirectBlocks)
    if h : doubleIndex / indirectBlocks < 128 then
      let table := (store blockBuffer.doublyIndirect).word ⟨doubleIndex / indirectBlocks, h⟩
      some ((store table).word ⟨doubleIndex % indirectBlocks, Nat.mod_lt _ (by decide)⟩)
    else none

theorem indexPath_direct (store : BlockSector → Sector) (root : BlockSector) {b : ℕ} (h : b < 12) :
    indexPath store root b = some ((store root).word ⟨b, by omega⟩) :=
  dif_pos h

theorem indexPath_indirect (store : BlockSector → Sector) (root : BlockSector) {b : ℕ}
    (h : ¬b < 12) (h' : b < 140) :
    indexPath store root b = some ((store (store root).indirect).word ⟨b - 12, by omega⟩) :=
  (dif_neg h).trans (dif_pos h')

theorem indexPath_doubly (store : BlockSector → Sector) (root : BlockSector) {b : ℕ}
    (h : ¬b < 140) (h' : (b - 140) / 128 < 128) :
    indexPath store root b =
      some ((store ((store (store root).doublyIndirect).word ⟨(b - 140) / 128, h'⟩)).word
        ⟨(b - 140) % 128, by omega⟩) := by
  have h₁ : ¬b < 12 := fun hb => h (by omega)
  exact (dif_neg h₁).trans ((dif_neg h).trans (dif_pos h'))

end Filesys
end CS162

/-
# Sectors of the block device, as bytes and as words

`projects1-3/src/devices/block.h`: a sector is `BLOCK_SECTOR_SIZE = 512` bytes
and its number a `block_sector_t`, an unsigned 32-bit integer.

The file system reads one sector in two ways.  Data blocks are bytes.  Inode
and index blocks are read as `block_sector_t block_buffer[BLOCK_SECTOR_SIZE /
sizeof(block_sector_t)]`, an array of 128 little-endian words: `word` and
`setWord` are the reads and writes of its entries.
-/

import Mathlib.Tactic.NormNum
import Mathlib.Tactic.SplitIfs
import CS162.Basis.Copy

namespace CS162
namespace Filesys

/-- `BLOCK_SECTOR_SIZE`. -/
def blockSectorSize : ℕ := 512

instance blockSectorSize_neZero : NeZero 512 := ⟨by decide⟩

instance blockSectorWords_neZero : NeZero 128 := ⟨by decide⟩

/-- `block_sector_t`. -/
abbrev BlockSector := UInt32

/-- The bytes of one sector. -/
abbrev Sector := Fin 512 → UInt8

namespace Sector

/-- `memset (s, 0, BLOCK_SECTOR_SIZE)`. -/
def zero : Sector := fun _ => 0

/-- The byte at offset `o` of the word array's entry `i`. -/
def wordByte (s : Sector) (i : Fin 128) (o : Fin 4) : ℕ :=
  (s ⟨4 * i.val + o.val, by omega⟩).toNat

/-- Entry `i` of the sector read as an array of little-endian 32-bit words. -/
def word (s : Sector) (i : Fin 128) : UInt32 :=
  UInt32.ofNat (wordByte s i 0 + 2 ^ 8 * wordByte s i 1 + 2 ^ 16 * wordByte s i 2 +
    2 ^ 24 * wordByte s i 3)

/-- The sector with entry `i` of its word array set to `v`. -/
def setWord (s : Sector) (i : Fin 128) (v : UInt32) : Sector := fun j =>
  if j.val / 4 = i.val then UInt8.ofNat (v.toNat / 2 ^ (8 * (j.val % 4))) else s j

theorem wordByte_lt (s : Sector) (i : Fin 128) (o : Fin 4) : wordByte s i o < 256 :=
  UInt8.toNat_lt _

theorem wordByte_setWord_self (s : Sector) (i : Fin 128) (v : UInt32) (o : Fin 4) :
    wordByte (setWord s i v) i o = v.toNat / 2 ^ (8 * o.val) % 256 := by
  have hdiv : (4 * i.val + o.val) / 4 = i.val := by omega
  have hmod : (4 * i.val + o.val) % 4 = o.val := by omega
  simp only [wordByte, setWord, hdiv, hmod, if_true, UInt8.toNat_ofNat']

/-- **An entry that was set reads back.** -/
@[simp] theorem word_setWord_self (s : Sector) (i : Fin 128) (v : UInt32) :
    (s.setWord i v).word i = v := by
  have hv : v.toNat < 2 ^ 32 := v.toNat_lt
  apply UInt32.toNat_inj.1
  simp only [word, wordByte_setWord_self, UInt32.toNat_ofNat']
  norm_num
  omega

/-- **Setting an entry leaves every other entry.** -/
theorem word_setWord_of_ne (s : Sector) {i j : Fin 128} (h : i ≠ j) (v : UInt32) :
    (s.setWord i v).word j = s.word j := by
  have hij : i.val ≠ j.val := fun he => h (Fin.ext he)
  have hbyte : ∀ o : Fin 4, wordByte (setWord s i v) j o = wordByte s j o := by
    intro o
    have hdiv : ¬(4 * j.val + o.val) / 4 = i.val := by omega
    simp only [wordByte, setWord, hdiv, if_false]
  simp only [word, hbyte]

theorem word_setWord (s : Sector) (i j : Fin 128) (v : UInt32) :
    (s.setWord i v).word j = if i = j then v else s.word j := by
  split_ifs with h
  · rw [← h, word_setWord_self]
  · exact word_setWord_of_ne s h v

/-- Setting an entry to the value it has changes no byte. -/
theorem setWord_word (s : Sector) (i : Fin 128) : s.setWord i (s.word i) = s := by
  have h0 := wordByte_lt s i 0
  have h1 := wordByte_lt s i 1
  have h2 := wordByte_lt s i 2
  have h3 := wordByte_lt s i 3
  have hw : (s.word i).toNat = wordByte s i 0 + 2 ^ 8 * wordByte s i 1 + 2 ^ 16 * wordByte s i 2 +
      2 ^ 24 * wordByte s i 3 := by
    rw [word, UInt32.toNat_ofNat', Nat.mod_eq_of_lt (by omega)]
  funext j
  unfold setWord
  split_ifs with hj
  · apply UInt8.toNat_inj.1
    have hb : ∀ o : Fin 4, j.val % 4 = o.val → (s j).toNat = wordByte s i o := by
      intro o ho
      unfold wordByte
      congr 2
      exact Fin.ext (by simp only; omega)
    rw [UInt8.toNat_ofNat', hw]
    have hcases : j.val % 4 = 0 ∨ j.val % 4 = 1 ∨ j.val % 4 = 2 ∨ j.val % 4 = 3 := by omega
    rcases hcases with h | h | h | h
    · rw [hb 0 h, h]
      norm_num
      omega
    · rw [hb 1 h, h]
      norm_num
      omega
    · rw [hb 2 h, h]
      norm_num
      omega
    · rw [hb 3 h, h]
      norm_num
      omega
  · rfl

@[simp] theorem word_zero (i : Fin 128) : zero.word i = 0 := rfl

end Sector

end Filesys
end CS162

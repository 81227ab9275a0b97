/-
# Headers of `ustar` archives

`projects1-3/src/lib/ustar.c`: a header describes one file of an archive in 512 bytes.

The C code casts the bytes to `struct ustar_header`; here a member of it is a slice of them
(`UstarField`).  Every header that is made is read back as what was put into it
(`ustarParseHeader_make`).  What is read of a header, made here or not, has no name that leads out of
the directory it is put in by its first part (`ustarParseHeader_ok`), and no byte outside the checksum
can change without an error (`ustarParseHeader_update`).
-/

import Mathlib.Data.List.TakeWhile
import Mathlib.Data.UInt
import CS162.Basis.Numerals
import CS162.Filesys.Sector

namespace CS162
namespace Lib

open CS162.Basis CS162.Filesys

/-! ### The functions -/

/-- `enum ustar_type`, for files; the end of an archive is no file. -/
inductive UstarType where
  | regular
  | directory
deriving DecidableEq

/-- The bytes that appear in the format. -/
def UstarType.byte : UstarType → UInt8
  | .regular => 48
  | .directory => 53

/-- The members of `struct ustar_header`. -/
inductive UstarField where
  | name | mode | uid | gid | size | mtime | chksum | typeflag | linkname | magic | version
  | uname | gname | devmajor | devminor | namePrefix | padding
deriving DecidableEq

/-- The offset of a member. -/
def UstarField.ofs : UstarField → ℕ
  | .name => 0
  | .mode => 100
  | .uid => 108
  | .gid => 116
  | .size => 124
  | .mtime => 136
  | .chksum => 148
  | .typeflag => 156
  | .linkname => 157
  | .magic => 257
  | .version => 263
  | .uname => 265
  | .gname => 297
  | .devmajor => 329
  | .devminor => 337
  | .namePrefix => 345
  | .padding => 500

/-- The size of a member. -/
def UstarField.width : UstarField → ℕ
  | .name | .linkname => 100
  | .mode | .uid | .gid | .chksum | .devmajor | .devminor => 8
  | .size | .mtime | .padding => 12
  | .typeflag => 1
  | .magic => 6
  | .version => 2
  | .uname | .gname => 32
  | .namePrefix => 155

/-- A member of a header. -/
def UstarField.get (f : UstarField) (h : Sector) : List UInt8 := slice h f.ofs f.width

/-- Bytes written at the start of a member. -/
def UstarField.put (f : UstarField) (h : Sector) (bs : List UInt8) : Sector := copyInto h f.ofs bs

/-- `strlcpy` and `snprintf`: a text and its null, cut off to fit. -/
def UstarField.putString (f : UstarField) (h : Sector) (s : List UInt8) : Sector :=
  f.put h (s.take (f.width - 1) ++ [0])

/-- `%0wo`. -/
def octal (w n : ℕ) : List UInt8 := (numeral 8 w n).map fun d => 48 + UInt8.ofNat d

/-- `"ustar"`. -/
def ustarMagic : List UInt8 := [117, 115, 116, 97, 114]

/-- `"root"`. -/
def ustarRoot : List UInt8 := [114, 111, 111, 116]

/-- `calculate_chksum`. -/
def calculateChksum (h : Sector) : UInt32 :=
  (List.finRange 512).foldl (fun chksum i =>
    let inChksumField := UstarField.chksum.ofs ≤ i.val ∧
      i.val < UstarField.chksum.ofs + UstarField.chksum.width
    chksum + if inChksumField then 32 else (h i).toUInt32) 0

/-- The loop of `strip_antisocial_prefixes`. -/
def stripLoop : List UInt8 → List UInt8
  | 47 :: fileName => stripLoop fileName
  | 46 :: 47 :: fileName => stripLoop fileName
  | 46 :: 46 :: 47 :: fileName => stripLoop fileName
  | fileName => fileName

/-- `strip_antisocial_prefixes`. -/
def stripAntisocialPrefixes (fileName : List UInt8) : List UInt8 :=
  if stripLoop fileName = [] ∨ stripLoop fileName = [46, 46] then [46] else stripLoop fileName

/-- The header except for the checksum. -/
def fillHeader (fileName : List UInt8) (type : UstarType) (size : Int32) : Sector :=
  let h := UstarField.name.putString Sector.zero fileName
  let h := UstarField.mode.putString h (octal 7 (if type = .regular then 0o644 else 0o755))
  let h := UstarField.uid.putString h (List.replicate 7 48)
  let h := UstarField.gid.putString h (List.replicate 7 48)
  let h := UstarField.size.putString h (octal 11 size.toUInt32.toNat)
  let h := UstarField.mtime.putString h (octal 11 1136102400)
  let h := UstarField.typeflag.put h [type.byte]
  let h := UstarField.magic.putString h ustarMagic
  let h := UstarField.version.put h [48, 48]
  let h := UstarField.gname.putString h ustarRoot
  UstarField.uname.putString h ustarRoot

/-- `ustar_make_header`, with the header it composes. -/
def ustarMakeHeader (fileName : List UInt8) (type : UstarType) (size : Int32) : Option Sector :=
  let fileName := stripAntisocialPrefixes fileName
  if 99 < fileName.length then none
  else
    let h := fillHeader fileName type size
    some (UstarField.chksum.putString h (octal 7 (calculateChksum h).toNat))

/-- The loop of `parse_octal_field`, at `ofs`. -/
def parseOctalFrom (value : UInt32) (ofs : ℕ) : List UInt8 → Option UInt32
  | [] => none
  | c :: s =>
    if 48 ≤ c ∧ c ≤ 55 then
      if 0xffffffff / 8 < value then none
      else parseOctalFrom ((c - 48).toUInt32 + value * 8) (ofs + 1) s
    else if c = 32 ∨ c = 0 then if 0 < ofs then some value else none
    else none

/-- `parse_octal_field`. -/
def parseOctalField (s : List UInt8) : Option UInt32 := parseOctalFrom 0 0 s

/-- What `ustar_parse_header` stores of a file. -/
structure UstarFile where
  fileName : List UInt8
  type : UstarType
  size : Int32
deriving DecidableEq

/-- The last part of `ustar_parse_header`. -/
def parseType (h : Sector) : Except String (Option UstarFile) :=
  let fileName := stripAntisocialPrefixes ((UstarField.name.get h).takeWhile (· ≠ 0))
  if UstarField.typeflag.get h = [UstarType.regular.byte] then
    match parseOctalField (UstarField.size.get h) with
    | none => .error "corrupt file size field"
    | some size =>
      if 0x7fffffff < size then .error "file too large"
      else .ok (some ⟨fileName, .regular, size.toInt32⟩)
  else if UstarField.typeflag.get h = [UstarType.directory.byte] then
    .ok (some ⟨fileName, .directory, 0⟩)
  else .error "unimplemented file type"

/-- `ustar_parse_header`; `none` is the end of the archive. -/
def ustarParseHeader (h : Sector) : Except String (Option UstarFile) :=
  if ∀ i, h i = 0 then .ok none
  else if UstarField.magic.get h ≠ ustarMagic ++ [0] then .error "not a ustar archive"
  else if UstarField.version.get h ≠ [48, 48] then .error "invalid ustar version"
  else match parseOctalField (UstarField.chksum.get h) with
    | none => .error "corrupt chksum field"
    | some chksum =>
      if chksum ≠ calculateChksum h then .error "checksum mismatch"
      else if (UstarField.name.get h).getLast? ≠ some 0 ∨
          (UstarField.namePrefix.get h).head? ≠ some 0 then
        .error "file name too long"
      else parseType h

/-! ### Members -/

theorem UstarField.disjoint {f g : UstarField} (h : f ≠ g) :
    f.ofs + f.width ≤ g.ofs ∨ g.ofs + g.width ≤ f.ofs := by
  cases f <;> cases g <;> first | exact absurd rfl h | decide

theorem UstarField.ofs_add_width_le (f : UstarField) : f.ofs + f.width ≤ 512 := by
  cases f <;> decide

theorem UstarField.width_pos (f : UstarField) : 0 < f.width := by cases f <;> decide

theorem length_get (h : Sector) (f : UstarField) : (f.get h).length = f.width :=
  length_slice h f.ofs_add_width_le

theorem get_put_of_ne {h : Sector} {f g : UstarField} {bs : List UInt8} (hne : f ≠ g)
    (hbs : bs.length ≤ f.width) : g.get (f.put h bs) = g.get h := by
  have hdisjoint := UstarField.disjoint hne
  exact slice_copyInto_of_disjoint h (by omega)

theorem get_put_self {h : Sector} {f : UstarField} {bs : List UInt8} (hbs : bs.length = f.width) :
    f.get (f.put h bs) = bs := by
  refine (slice_copyInto h hbs.le f.ofs_add_width_le).trans ?_
  rw [hbs, Nat.sub_self, slice, List.take_zero, List.append_nil]

theorem get_putString_of_ne {h : Sector} {f g : UstarField} {s : List UInt8} (hne : f ≠ g) :
    g.get (f.putString h s) = g.get h := by
  have hpos := f.width_pos
  refine get_put_of_ne hne ?_
  rw [List.length_append, List.length_take, List.length_singleton]
  omega

/-- A text that fits is there with its null, and what was there after it. -/
theorem get_putString_self {h : Sector} {f : UstarField} {s : List UInt8}
    (hs : s.length < f.width) :
    f.get (f.putString h s) = s ++ 0 :: (f.get h).drop (s.length + 1) := by
  have hlength : (s ++ [0]).length = s.length + 1 := List.length_append
  unfold UstarField.putString
  rw [List.take_of_length_le (by omega)]
  refine (slice_copyInto h (by omega) f.ofs_add_width_le).trans ?_
  have hrest : (f.get h).drop (s.length + 1) =
      slice h (f.ofs + (s ++ [0]).length) (f.width - (s ++ [0]).length) := by
    rw [UstarField.get, slice, slice, List.drop_take, List.drop_drop, hlength]
  rw [hrest, List.append_assoc, List.singleton_append]

theorem get_putString_full {h : Sector} {f : UstarField} {s : List UInt8}
    (hs : s.length + 1 = f.width) : f.get (f.putString h s) = s ++ [0] := by
  rw [get_putString_self (by omega), List.drop_eq_nil_of_le (by rw [length_get]; omega)]

theorem get_zero (f : UstarField) : f.get Sector.zero = List.replicate f.width 0 := by
  refine List.eq_replicate_iff.2 ⟨length_get _ f, fun b hb => ?_⟩
  obtain ⟨k, hk, rfl⟩ := List.getElem_of_mem hb
  have hle := f.ofs_add_width_le
  rw [length_get] at hk
  exact getElem_slice _ _ (by omega)

/-! ### Octal fields -/

theorem length_octal {w n : ℕ} (h : n < 8 ^ w) : (octal w n).length = w := by
  rw [octal, List.length_map, length_numeral (by decide) h]

theorem ofNat_digit {d : ℕ} (hd : d < 8) :
    48 ≤ 48 + UInt8.ofNat d ∧ 48 + UInt8.ofNat d ≤ 55 ∧ (48 + UInt8.ofNat d - 48).toNat = d := by
  interval_cases d <;> decide

/-- Digits are read up to the null, if what they are worth has 32 bits. -/
theorem parseOctalFrom_digits {ds : List ℕ} (hds : ∀ d ∈ ds, d < 8) (value : UInt32)
    (hvalue : valueFrom 8 value.toNat ds < 2 ^ 32) (ofs : ℕ) (hofs : 0 < ofs + ds.length)
    (rest : List UInt8) :
    parseOctalFrom value ofs (ds.map (fun d => 48 + UInt8.ofNat d) ++ 0 :: rest) =
      some (UInt32.ofNat (valueFrom 8 value.toNat ds)) := by
  induction ds generalizing value ofs with
  | nil =>
    have hpos : 0 < ofs := hofs
    rw [List.map_nil, List.nil_append, parseOctalFrom, if_neg (by decide), if_pos (.inr rfl), if_pos hpos]
    exact congrArg some (UInt32.ofNat_toNat).symm
  | cons d ds ih =>
    obtain ⟨hge, hle, hdigit⟩ := ofNat_digit (hds d List.mem_cons_self)
    -- what is read so far is at most what the whole is worth
    have hprefix : 8 * value.toNat + d < 2 ^ 32 :=
      Nat.lt_of_le_of_lt (le_valueFrom (by decide) _ ds) hvalue
    have hsmall : ¬0xffffffff / 8 < value := by
      have hlimit : ((0xffffffff : UInt32) / 8).toNat = 536870911 := rfl
      rw [UInt32.lt_iff_toNat_lt, hlimit]
      omega
    have hnext : ((48 + UInt8.ofNat d - 48).toUInt32 + value * 8).toNat = 8 * value.toNat + d := by
      have height : (8 : UInt32).toNat = 8 := rfl
      rw [UInt32.toNat_add, UInt32.toNat_mul, UInt8.toNat_toUInt32, hdigit, height]
      omega
    rw [List.map_cons, List.cons_append, parseOctalFrom, if_pos ⟨hge, hle⟩, if_neg hsmall,
      ih (fun e he => hds e (List.mem_cons_of_mem _ he)) _ (by rw [hnext]; exact hvalue) _ (by omega),
      hnext]
    rfl

/-- **An octal field is read back.** -/
theorem parseOctalField_octal {w n : ℕ} (hw : 0 < w) (h : n < 8 ^ w) (hn : n < 2 ^ 32)
    (rest : List UInt8) : parseOctalField (octal w n ++ 0 :: rest) = some (UInt32.ofNat n) := by
  have hvalue := valueFrom_numeral 8 w n
  have hread := parseOctalFrom_digits (fun d hd => numeral_lt (by decide) hd) 0
    (by rw [UInt32.toNat_zero, hvalue]; exact hn) 0
    (by rw [length_numeral (by decide) h, Nat.zero_add]; exact hw) rest
  rw [UInt32.toNat_zero, hvalue] at hread
  exact hread

/-! ### Checksums -/

/-- What the loop adds for a byte. -/
def chksumByte (h : Sector) (i : Fin 512) : UInt32 :=
  if UstarField.chksum.ofs ≤ i.val ∧ i.val < UstarField.chksum.ofs + UstarField.chksum.width then 32
  else (h i).toUInt32

theorem calculateChksum_eq (h : Sector) :
    calculateChksum h = ((List.finRange 512).map (chksumByte h)).sum := by
  rw [List.sum_eq_foldl, List.foldl_map]
  rfl

theorem chksumByte_le (h : Sector) (i : Fin 512) : (chksumByte h i).toNat ≤ 255 := by
  unfold chksumByte
  split_ifs
  · decide
  · rw [UInt8.toNat_toUInt32]
    have hlt := (h i).toNat_lt
    omega

theorem toNat_sum_le (xs : List UInt32) {m : ℕ} (hm : ∀ x ∈ xs, x.toNat ≤ m) :
    xs.sum.toNat ≤ m * xs.length := by
  induction xs with
  | nil => exact Nat.le_refl 0
  | cons x xs ih =>
    have hx := hm x List.mem_cons_self
    have hxs := ih fun y hy => hm y (List.mem_cons_of_mem _ hy)
    rw [List.sum_cons, UInt32.toNat_add, List.length_cons, Nat.mul_succ]
    exact (Nat.mod_le _ _).trans (by omega)

/-- The checksum has 18 bits at most. -/
theorem calculateChksum_le (h : Sector) : (calculateChksum h).toNat ≤ 130560 := by
  rw [calculateChksum_eq]
  refine (toNat_sum_le _ (m := 255) fun x hx => ?_).trans (by simp)
  obtain ⟨i, -, rfl⟩ := List.mem_map.1 hx
  exact chksumByte_le h i

/-- The checksum does not depend on its own member. -/
theorem calculateChksum_putString (h : Sector) (s : List UInt8) :
    calculateChksum (UstarField.chksum.putString h s) = calculateChksum h := by
  rw [calculateChksum_eq, calculateChksum_eq]
  refine congrArg List.sum (List.map_congr_left fun i _ => ?_)
  unfold chksumByte
  split_ifs with hin
  · rfl
  · have hlength : (s.take (UstarField.chksum.width - 1) ++ [0]).length ≤ UstarField.chksum.width := by
      rw [List.length_append, List.length_take, List.length_singleton]
      have hpos := UstarField.chksum.width_pos
      omega
    exact congrArg UInt8.toUInt32 (copyInto_outside h (by omega))

/-- **One byte that changes** outside the checksum changes the checksum. -/
theorem calculateChksum_update {h : Sector} {i : Fin 512} {b : UInt8} (hb : b ≠ h i)
    (hi : i.val < UstarField.chksum.ofs ∨ UstarField.chksum.ofs + UstarField.chksum.width ≤ i.val) :
    calculateChksum (Function.update h i b) ≠ calculateChksum h := by
  obtain ⟨before, after, hsplit⟩ := List.append_of_mem (List.mem_finRange i)
  have hnodup := List.nodup_finRange 512
  rw [hsplit] at hnodup
  have hother {j : Fin 512} (hj : j ≠ i) :
      chksumByte (Function.update h i b) j = chksumByte h j := by
    unfold chksumByte
    rw [Function.update_of_ne hj]
  have hbefore : before.map (chksumByte (Function.update h i b)) = before.map (chksumByte h) :=
    List.map_congr_left fun j hj => hother fun heq =>
      (List.disjoint_of_nodup_append hnodup) hj (heq ▸ List.mem_cons_self)
  have hafter : after.map (chksumByte (Function.update h i b)) = after.map (chksumByte h) :=
    List.map_congr_left fun j hj => hother fun heq =>
      (List.nodup_cons.1 (List.nodup_append.1 hnodup).2.1).1 (heq ▸ hj)
  rw [calculateChksum_eq, calculateChksum_eq, hsplit, List.map_append, List.map_append,
    List.map_cons, List.map_cons, List.sum_append, List.sum_append, List.sum_cons, List.sum_cons,
    hbefore, hafter]
  intro heq
  have hbyte := (UInt32.add_left_inj _).1 ((UInt32.add_right_inj _).1 heq)
  unfold chksumByte at hbyte
  rw [if_neg (by omega), if_neg (by omega), Function.update_self] at hbyte
  exact hb (UInt8.toUInt32_inj.1 hbyte)

/-! ### Names -/

/-- A name that leads out of a directory at once, or is none. -/
def Antisocial (fileName : List UInt8) : Prop :=
  [47] <+: fileName ∨ [46, 47] <+: fileName ∨ [46, 46, 47] <+: fileName ∨ fileName = [] ∨
    fileName = [46, 46]

theorem stripLoop_suffix (fileName : List UInt8) : stripLoop fileName <:+ fileName := by
  induction fileName using stripLoop.induct with
  | case1 fileName ih =>
    rw [stripLoop]
    exact ih.trans (List.suffix_cons _ _)
  | case2 fileName ih =>
    rw [stripLoop]
    exact ih.trans (List.suffix_append [46, 47] _)
  | case3 fileName ih =>
    rw [stripLoop]
    exact ih.trans (List.suffix_append [46, 46, 47] _)
  | case4 fileName h₁ h₂ h₃ =>
    rw [stripLoop.eq_4 _ h₁ h₂ h₃]

theorem stripLoop_of_not_antisocial {fileName : List UInt8} (h : ¬Antisocial fileName) :
    stripLoop fileName = fileName := by
  rw [stripLoop]
  · rintro rest rfl
    exact h (.inl (List.prefix_append [47] rest))
  · rintro rest rfl
    exact h (.inr (.inl (List.prefix_append [46, 47] rest)))
  · rintro rest rfl
    exact h (.inr (.inr (.inl (List.prefix_append [46, 46, 47] rest))))

/-- No prefix that the loop strips is left. -/
theorem not_prefix_stripLoop (fileName : List UInt8) :
    ¬[47] <+: stripLoop fileName ∧ ¬[46, 47] <+: stripLoop fileName ∧
      ¬[46, 46, 47] <+: stripLoop fileName := by
  induction fileName using stripLoop.induct with
  | case1 fileName ih =>
    rw [stripLoop]
    exact ih
  | case2 fileName ih =>
    rw [stripLoop]
    exact ih
  | case3 fileName ih =>
    rw [stripLoop]
    exact ih
  | case4 fileName h₁ h₂ h₃ =>
    rw [stripLoop.eq_4 _ h₁ h₂ h₃]
    refine ⟨?_, ?_, ?_⟩
    · rintro ⟨rest, rfl⟩
      exact h₁ rest rfl
    · rintro ⟨rest, rfl⟩
      exact h₂ rest rfl
    · rintro ⟨rest, rfl⟩
      exact h₃ rest rfl

/-- **Nothing that is stripped leads out of the directory.** -/
theorem not_antisocial_strip (fileName : List UInt8) :
    ¬Antisocial (stripAntisocialPrefixes fileName) := by
  unfold stripAntisocialPrefixes
  split_ifs with h
  · unfold Antisocial
    decide
  · obtain ⟨h₁, h₂, h₃⟩ := not_prefix_stripLoop fileName
    rw [not_or] at h
    rintro (h' | h' | h' | h' | h')
    · exact h₁ h'
    · exact h₂ h'
    · exact h₃ h'
    · exact h.1 h'
    · exact h.2 h'

/-- What does not lead out of the directory stays as it is. -/
theorem strip_of_not_antisocial {fileName : List UInt8} (h : ¬Antisocial fileName) :
    stripAntisocialPrefixes fileName = fileName := by
  unfold stripAntisocialPrefixes
  rw [stripLoop_of_not_antisocial h, if_neg]
  rintro (h' | h')
  · exact h (.inr (.inr (.inr (.inl h'))))
  · exact h (.inr (.inr (.inr (.inr h'))))

/-- **Stripping twice is stripping once.** -/
theorem strip_strip (fileName : List UInt8) :
    stripAntisocialPrefixes (stripAntisocialPrefixes fileName) = stripAntisocialPrefixes fileName :=
  strip_of_not_antisocial (not_antisocial_strip fileName)

theorem zero_notMem_strip {fileName : List UInt8} (h : 0 ∉ fileName) :
    0 ∉ stripAntisocialPrefixes fileName := by
  unfold stripAntisocialPrefixes
  split_ifs
  · decide
  · exact fun hmem => h ((stripLoop_suffix fileName).subset hmem)

theorem length_strip_le {fileName : List UInt8} {m : ℕ} (hm : 0 < m) (h : fileName.length ≤ m) :
    (stripAntisocialPrefixes fileName).length ≤ m := by
  unfold stripAntisocialPrefixes
  split_ifs
  · exact hm
  · exact (stripLoop_suffix fileName).length_le.trans h

/-! ### Headers -/

section Fill

variable (fileName : List UInt8) (type : UstarType) (size : Int32)

theorem fillHeader_magic :
    UstarField.magic.get (fillHeader fileName type size) = ustarMagic ++ [0] := by
  unfold fillHeader
  dsimp only
  rw [get_putString_of_ne (by decide), get_putString_of_ne (by decide),
    get_put_of_ne (by decide) (by decide), get_putString_full (by decide)]

theorem fillHeader_version : UstarField.version.get (fillHeader fileName type size) = [48, 48] := by
  unfold fillHeader
  dsimp only
  rw [get_putString_of_ne (by decide), get_putString_of_ne (by decide), get_put_self (by decide)]

theorem fillHeader_typeflag :
    UstarField.typeflag.get (fillHeader fileName type size) = [type.byte] := by
  unfold fillHeader
  dsimp only
  rw [get_putString_of_ne (by decide), get_putString_of_ne (by decide),
    get_put_of_ne (by decide) (by decide), get_putString_of_ne (by decide), get_put_self rfl]

theorem fillHeader_size :
    UstarField.size.get (fillHeader fileName type size) = octal 11 size.toUInt32.toNat ++ [0] := by
  have hlt : size.toUInt32.toNat < 8 ^ 11 := size.toUInt32.toNat_lt.trans (by decide)
  have hfull : (octal 11 size.toUInt32.toNat).length + 1 = UstarField.size.width := by
    rw [length_octal hlt]
    rfl
  unfold fillHeader
  dsimp only
  rw [get_putString_of_ne (by decide), get_putString_of_ne (by decide),
    get_put_of_ne (by decide) (by decide), get_putString_of_ne (by decide),
    get_put_of_ne (by decide) (by simp [UstarField.width]), get_putString_of_ne (by decide),
    get_putString_full hfull]

theorem fillHeader_namePrefix :
    UstarField.namePrefix.get (fillHeader fileName type size) = List.replicate 155 0 := by
  unfold fillHeader
  dsimp only
  rw [get_putString_of_ne (by decide), get_putString_of_ne (by decide),
    get_put_of_ne (by decide) (by decide), get_putString_of_ne (by decide),
    get_put_of_ne (by decide) (by simp [UstarField.width]), get_putString_of_ne (by decide),
    get_putString_of_ne (by decide), get_putString_of_ne (by decide),
    get_putString_of_ne (by decide), get_putString_of_ne (by decide),
    get_putString_of_ne (by decide), get_zero]
  rfl

/-- The name is filled up with zeros. -/
theorem fillHeader_name {fileName : List UInt8} (h : fileName.length ≤ 99) :
    UstarField.name.get (fillHeader fileName type size) =
      fileName ++ List.replicate (100 - fileName.length) 0 := by
  have hzeros : 0 :: List.replicate (99 - fileName.length) (0 : UInt8) =
      List.replicate (100 - fileName.length) 0 := by
    rw [← List.replicate_succ]
    congr 1
    omega
  unfold fillHeader
  dsimp only
  rw [get_putString_of_ne (by decide), get_putString_of_ne (by decide),
    get_put_of_ne (by decide) (by decide), get_putString_of_ne (by decide),
    get_put_of_ne (by decide) (by simp [UstarField.width]), get_putString_of_ne (by decide),
    get_putString_of_ne (by decide), get_putString_of_ne (by decide),
    get_putString_of_ne (by decide), get_putString_of_ne (by decide),
    get_putString_self (Nat.lt_succ_of_le h), get_zero, List.drop_replicate, ← hzeros]
  congr 3
  exact Nat.succ_sub_succ 99 _

end Fill

/-- A header with the magic number is not all zeros. -/
theorem not_all_zero {h : Sector} (hmagic : UstarField.magic.get h = ustarMagic ++ [0]) :
    ¬∀ i, h i = 0 := fun hzero => by
  rw [show h = Sector.zero from funext hzero, get_zero] at hmagic
  exact absurd hmagic (by decide)

theorem takeWhile_name {fileName : List UInt8} (h : 0 ∉ fileName) (k : ℕ) :
    (fileName ++ List.replicate k 0).takeWhile (· ≠ 0) = fileName := by
  have hall : ∀ b ∈ fileName, decide (b ≠ 0) = true := fun b hb =>
    decide_eq_true fun hzero => h (hzero ▸ hb)
  rw [List.takeWhile_append_of_pos hall, List.takeWhile_replicate]
  exact List.append_nil _

theorem negative_iff (size : Int32) : 0x7fffffff < size.toUInt32 ↔ size < 0 := by
  have hlimit : (0x7fffffff : UInt32).toNat = 2147483647 := rfl
  have hzero : (0 : Int32).toInt = 0 := rfl
  have hbits : size.toInt = if 2 * size.toUInt32.toNat < 2 ^ 32 then (size.toUInt32.toNat : ℤ)
      else (size.toUInt32.toNat : ℤ) - (2 ^ 32 : ℕ) := by
    rw [← Int32.toNat_toBitVec, ← Int32.toInt_toBitVec, BitVec.toInt_eq_toNat_cond]
  have hlt := size.toUInt32.toNat_lt
  rw [UInt32.lt_iff_toNat_lt, Int32.lt_iff_toInt_lt, hlimit, hzero]
  split_ifs at hbits <;> omega

/-- The last part, of a header that was filled in. -/
theorem parseType_eq {h : Sector} {fileName : List UInt8} {k : ℕ} {type : UstarType} {size : Int32}
    (hzero : 0 ∉ fileName) (hstrip : stripAntisocialPrefixes fileName = fileName)
    (hname : UstarField.name.get h = fileName ++ List.replicate k 0)
    (htype : UstarField.typeflag.get h = [type.byte])
    (hsize : UstarField.size.get h = octal 11 size.toUInt32.toNat ++ [0]) :
    parseType h = if type = .regular ∧ size < 0 then .error "file too large"
      else .ok (some ⟨fileName, type, if type = .regular then size else 0⟩) := by
  have hlt := size.toUInt32.toNat_lt
  have hread : parseOctalField (octal 11 size.toUInt32.toNat ++ [0]) = some size.toUInt32 := by
    rw [parseOctalField_octal (by decide) (hlt.trans (by decide)) hlt, UInt32.ofNat_toNat]
  unfold parseType
  rw [hname, takeWhile_name hzero, hstrip, htype, hsize, hread]
  cases type with
  | regular =>
    dsimp only
    rw [if_pos rfl, if_pos rfl]
    by_cases hneg : size < 0
    · rw [if_pos ((negative_iff size).2 hneg), if_pos ⟨rfl, hneg⟩]
    · rw [if_neg (mt (negative_iff size).1 hneg), if_neg (fun h => hneg h.2)]
      rfl
  | directory => rfl

/-- **Every header that is made is read back**: the name without what leads out of the directory, the
type, and the size of a regular file.  The sizes that are refused are negative. -/
theorem ustarParseHeader_make {fileName : List UInt8} (hname : 0 ∉ fileName) (type : UstarType)
    (size : Int32) :
    (ustarMakeHeader fileName type size = none ↔ 99 < (stripAntisocialPrefixes fileName).length) ∧
      ∀ h, ustarMakeHeader fileName type size = some h → ustarParseHeader h =
        if type = .regular ∧ size < 0 then .error "file too large"
        else .ok (some ⟨stripAntisocialPrefixes fileName, type,
          if type = .regular then size else 0⟩) := by
  unfold ustarMakeHeader
  dsimp only
  have hstrip := strip_strip fileName
  have hzero := zero_notMem_strip hname
  generalize stripAntisocialPrefixes fileName = fileName at hstrip hzero
  rcases Nat.lt_or_ge 99 fileName.length with hlong | hshort
  · rw [if_pos hlong]
    exact ⟨iff_of_true rfl hlong, fun h heq => by cases heq⟩
  rw [if_neg (Nat.not_lt.2 hshort)]
  refine ⟨iff_of_false (by simp) (Nat.not_lt.2 hshort), fun h heq => ?_⟩
  obtain rfl := Option.some.inj heq
  have hfield {f : UstarField} (hne : .chksum ≠ f) (s : List UInt8) :
      f.get (UstarField.chksum.putString (fillHeader fileName type size) s) =
        f.get (fillHeader fileName type size) := get_putString_of_ne hne
  have hmagic := (hfield (f := .magic) (by decide) (octal 7 (calculateChksum
    (fillHeader fileName type size)).toNat)).trans (fillHeader_magic fileName type size)
  have hchksum_lt : (calculateChksum (fillHeader fileName type size)).toNat < 8 ^ 7 :=
    Nat.lt_of_le_of_lt (calculateChksum_le _) (by decide)
  have hlength : (octal 7 (calculateChksum (fillHeader fileName type size)).toNat).length + 1 =
      UstarField.chksum.width := by
    rw [length_octal hchksum_lt]
    rfl
  have hlast : (fileName ++ List.replicate (100 - fileName.length) 0).getLast? = some 0 := by
    rw [List.getLast?_append, List.getLast?_replicate, if_neg (by omega)]
    rfl
  unfold ustarParseHeader
  rw [if_neg (not_all_zero hmagic), if_neg (not_not.2 hmagic),
    if_neg (not_not.2 ((hfield (by decide) _).trans (fillHeader_version ..))),
    get_putString_full hlength,
    parseOctalField_octal (by decide) hchksum_lt (UInt32.toNat_lt _) [], UInt32.ofNat_toNat]
  dsimp only
  rw [calculateChksum_putString, if_neg (not_not.2 rfl), hfield (by decide),
    fillHeader_name type size hshort, hlast, hfield (by decide), fillHeader_namePrefix,
    if_neg (by simp)]
  exact parseType_eq hzero hstrip ((hfield (by decide) _).trans
    (fillHeader_name type size hshort))
    ((hfield (by decide) _).trans (fillHeader_typeflag ..))
    ((hfield (by decide) _).trans (fillHeader_size ..))

example : ∃ h, ustarMakeHeader [46, 46, 47, 47, 97] .regular 600 = some h ∧
    ustarParseHeader h = .ok (some ⟨[97], .regular, 600⟩) :=
  ⟨_, rfl, (@ustarParseHeader_make [46, 46, 47, 47, 97] (by decide) .regular 600).2 _ rfl⟩

/-- The end of an archive. -/
theorem ustarParseHeader_zero : ustarParseHeader Sector.zero = .ok none := by
  unfold ustarParseHeader
  rw [if_pos]
  exact fun _ => rfl

/-- What is accepted passed every check. -/
theorem ustarParseHeader_cases {h : Sector} {found : Option UstarFile}
    (hparse : ustarParseHeader h = .ok found) :
    (found = none ∧ ∀ i, h i = 0) ∨ UstarField.magic.get h = ustarMagic ++ [0] ∧
      parseOctalField (UstarField.chksum.get h) = some (calculateChksum h) ∧
      (UstarField.name.get h).getLast? = some 0 ∧ parseType h = .ok found := by
  unfold ustarParseHeader at hparse
  by_cases hzero : ∀ i, h i = 0
  · rw [if_pos hzero] at hparse
    exact .inl ⟨(Except.ok.inj hparse).symm, hzero⟩
  rw [if_neg hzero] at hparse
  by_cases hmagic : UstarField.magic.get h ≠ ustarMagic ++ [0]
  · rw [if_pos hmagic] at hparse
    cases hparse
  rw [if_neg hmagic] at hparse
  by_cases hversion : UstarField.version.get h ≠ [48, 48]
  · rw [if_pos hversion] at hparse
    cases hparse
  rw [if_neg hversion] at hparse
  cases hchksum : parseOctalField (UstarField.chksum.get h) with
  | none =>
    rw [hchksum] at hparse
    cases hparse
  | some chksum =>
    rw [hchksum] at hparse
    dsimp only at hparse
    split_ifs at hparse with heq hname
    rw [not_or, not_not] at hname
    rw [not_not] at heq
    exact .inr ⟨not_not.1 hmagic, congrArg some heq, hname.1, hparse⟩

/-- The fields of a header that is accepted. -/
theorem parseType_ok {h : Sector} {found : Option UstarFile} (hparse : parseType h = .ok found) :
    ∃ file, found = some file ∧ file.fileName =
        stripAntisocialPrefixes ((UstarField.name.get h).takeWhile (· ≠ 0)) ∧
      0 ≤ file.size ∧ (file.type = .directory → file.size = 0) := by
  unfold parseType at hparse
  dsimp only at hparse
  generalize stripAntisocialPrefixes ((UstarField.name.get h).takeWhile (· ≠ 0)) = fileName at hparse ⊢
  by_cases hregular : UstarField.typeflag.get h = [UstarType.regular.byte]
  · rw [if_pos hregular] at hparse
    cases hsize : parseOctalField (UstarField.size.get h) with
    | none =>
      rw [hsize] at hparse
      cases hparse
    | some size =>
      rw [hsize] at hparse
      dsimp only at hparse
      by_cases hlarge : 0x7fffffff < size
      · rw [if_pos hlarge] at hparse
        cases hparse
      rw [if_neg hlarge] at hparse
      have hfound := (Except.ok.inj hparse).symm
      refine ⟨_, hfound, rfl, ?_, fun h => UstarType.noConfusion h⟩
      rw [← UInt32.toUInt32_toInt32 size, negative_iff] at hlarge
      exact Int32.not_lt.1 hlarge
  · rw [if_neg hregular] at hparse
    by_cases hdirectory : UstarField.typeflag.get h = [UstarType.directory.byte]
    · rw [if_pos hdirectory] at hparse
      have hfound := (Except.ok.inj hparse).symm
      exact ⟨_, hfound, rfl, Int32.le_refl 0, fun _ => rfl⟩
    · rw [if_neg hdirectory] at hparse
      cases hparse

/-- **What is read of a header, whoever made it**, does not lead out of the directory by its first
part, has no null, fits, and is not of a negative size. -/
theorem ustarParseHeader_ok {h : Sector} {file : UstarFile}
    (hparse : ustarParseHeader h = .ok (some file)) :
    ¬Antisocial file.fileName ∧ 0 ∉ file.fileName ∧ file.fileName.length ≤ 99 ∧ 0 ≤ file.size ∧
      (file.type = .directory → file.size = 0) := by
  rcases ustarParseHeader_cases hparse with ⟨hnone, -⟩ | ⟨-, -, hlast, htype⟩
  · cases hnone
  obtain ⟨_, hfile, hname, hsize⟩ := parseType_ok htype
  obtain rfl := Option.some.inj hfile
  have hnull : 0 ∉ (UstarField.name.get h).takeWhile (· ≠ 0) := fun hmem => by
    simpa using List.mem_takeWhile_imp hmem
  -- the last byte of the member is a null
  have hlength : ((UstarField.name.get h).takeWhile (· ≠ 0)).length ≤ 99 := by
    have hpre := List.takeWhile_prefix (fun b : UInt8 => decide (b ≠ 0)) (l := UstarField.name.get h)
    have hle := hpre.length_le
    have hwidth : (UstarField.name.get h).length = 100 := length_get h .name
    by_contra hlong
    rw [hpre.eq_of_length (by omega)] at hnull
    exact hnull (List.mem_of_getLast? hlast)
  rw [hname]
  exact ⟨not_antisocial_strip _, zero_notMem_strip hnull, length_strip_le (by decide) hlength, hsize⟩

/-- **A byte that changes is noticed**, wherever it is outside the checksum. -/
theorem ustarParseHeader_update {h : Sector} {file : UstarFile}
    (hparse : ustarParseHeader h = .ok (some file)) {i : Fin 512} {b : UInt8} (hb : b ≠ h i)
    (hi : i.val < UstarField.chksum.ofs ∨ UstarField.chksum.ofs + UstarField.chksum.width ≤ i.val) :
    ∃ error, ustarParseHeader (Function.update h i b) = .error error := by
  rcases ustarParseHeader_cases hparse with ⟨hnone, -⟩ | ⟨hmagic, hchksum, -, -⟩
  · cases hnone
  have hsame : UstarField.chksum.get (Function.update h i b) = UstarField.chksum.get h := by
    refine List.ext_getElem? fun k => ?_
    rw [UstarField.get, UstarField.get, getElem?_slice, getElem?_slice]
    split_ifs with hk
    · rw [Function.update_of_ne]
      rintro rfl
      dsimp only at hi
      omega
    · rfl
  cases hread : ustarParseHeader (Function.update h i b) with
  | error error => exact ⟨error, rfl⟩
  | ok found =>
    exfalso
    rcases ustarParseHeader_cases hread with ⟨-, hzero⟩ | ⟨-, hchksum', -, -⟩
    · -- one byte of the magic number is still there
      have hbyte (k : ℕ) (hk : k < 6) : h ⟨257 + k, by omega⟩ = (ustarMagic ++ [0])[k] := by
        have hget := getElem?_slice h UstarField.magic.ofs UstarField.magic.width k
        rw [dif_pos ⟨hk, show 257 + k < 512 by omega⟩] at hget
        change (UstarField.magic.get h)[k]? = _ at hget
        rw [hmagic, List.getElem?_eq_getElem hk] at hget
        exact (Option.some.inj hget).symm
      have hother (k : ℕ) (hk : k < 6) (hne : (ustarMagic ++ [0])[k] ≠ 0) : 257 + k = i.val := by
        by_contra hi
        have hz := hzero ⟨257 + k, by omega⟩
        rw [Function.update_of_ne (fun heq => hi (congrArg Fin.val heq)), hbyte k hk] at hz
        exact hne hz
      have h₀ := hother 0 (by decide) (by decide)
      have h₁ := hother 1 (by decide) (by decide)
      omega
    · rw [hsame, hchksum] at hchksum'
      exact calculateChksum_update hb hi (Option.some.inj hchksum').symm

/-- **A header that is accepted**, whoever made it, names a file that is put inside the directory as
far as its first part goes, and no longer is accepted when a byte outside the checksum changes. -/
theorem ustarParseHeader_accepts {h : Sector} {file : UstarFile}
    (hparse : ustarParseHeader h = .ok (some file)) :
    (¬Antisocial file.fileName ∧ 0 ∉ file.fileName ∧ file.fileName.length ≤ 99 ∧ 0 ≤ file.size ∧
        (file.type = .directory → file.size = 0)) ∧
      ∀ (i : Fin 512) (b : UInt8), b ≠ h i →
        (i.val < UstarField.chksum.ofs ∨
          UstarField.chksum.ofs + UstarField.chksum.width ≤ i.val) →
        ∃ error, ustarParseHeader (Function.update h i b) = .error error :=
  ⟨ustarParseHeader_ok hparse, fun _ _ hb hi => ustarParseHeader_update hparse hb hi⟩

/-- The header of a directory. -/
theorem ustarParseHeader_accepts_directory :
    ∃ h, ustarMakeHeader [97, 47] .directory 0 = some h ∧
      ∃ error, ustarParseHeader (Function.update h 0 98) = .error error := by
  have hparse := (@ustarParseHeader_make [97, 47] (by decide) .directory 0).2 _ rfl
  exact ⟨_, rfl, (ustarParseHeader_accepts hparse).2 0 98 (by decide) (by decide)⟩

end Lib
end CS162

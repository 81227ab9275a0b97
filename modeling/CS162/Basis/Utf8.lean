/-
# UTF-8

A text is the list of its characters.  `utf8 s` are the bytes of a text, and `fromUtf8 b` is the
text that the bytes are, if they are one's.  A character that is one byte long is that byte, and
the bytes of others are at least 128.
-/

import Mathlib.Data.List.Basic
import Mathlib.Tactic.Common

namespace CS162
namespace Basis

/-- The characters of a text. -/
abbrev Text := List Char

/-- The bytes of a text. -/
def utf8 (s : Text) : List UInt8 := s.flatMap String.utf8EncodeChar

/-- The text that bytes are. -/
def fromUtf8 (b : List UInt8) : Option Text := b.toByteArray.utf8Decode?.map Array.toList

section Utf8

variable {s t : Text} {b : List UInt8} {c : Char} {x : UInt8}

@[simp] theorem utf8_nil : utf8 [] = [] := rfl

theorem utf8_append : utf8 (s ++ t) = utf8 s ++ utf8 t := List.flatMap_append

theorem utf8_cons : utf8 (c :: s) = String.utf8EncodeChar c ++ utf8 s := rfl

theorem toByteArray_utf8 (s : Text) : (utf8 s).toByteArray = s.utf8Encode := rfl

theorem toByteArray_inj {b b' : List UInt8} (h : b.toByteArray = b'.toByteArray) : b = b' := by
  have hdata := congrArg (fun a : ByteArray => a.data.toList) h
  simpa using hdata

/-- **A text's bytes are read as the text**, and only they. -/
theorem fromUtf8_eq_some_iff : fromUtf8 b = some s ↔ utf8 s = b := by
  unfold fromUtf8
  constructor
  · intro h
    obtain ⟨a, ha, rfl⟩ := Option.map_eq_some_iff.1 h
    obtain ⟨t, ht⟩ := ByteArray.isSome_utf8Decode?_iff.1 (Option.isSome_of_eq_some ha)
    rw [ht, List.utf8Decode?_utf8Encode, Option.some_inj] at ha
    rw [← ha]
    exact toByteArray_inj ht.symm
  · rintro rfl
    rw [toByteArray_utf8, List.utf8Decode?_utf8Encode]
    rfl

@[simp] theorem fromUtf8_utf8 (s : Text) : fromUtf8 (utf8 s) = some s := fromUtf8_eq_some_iff.2 rfl

theorem utf8_inj (h : utf8 s = utf8 t) : s = t := by
  have hs := fromUtf8_utf8 s
  rw [h, fromUtf8_utf8] at hs
  exact (Option.some.inj hs).symm

/-- A text whose bytes begin with a text's begins with it. -/
theorem exists_append_of_utf8 (h : utf8 s = utf8 t ++ b) : ∃ u, s = t ++ u ∧ utf8 u = b := by
  have harray : t.utf8Encode ++ b.toByteArray = s.utf8Encode := by
    rw [← toByteArray_utf8, ← toByteArray_utf8, h, List.toByteArray_append]
  obtain ⟨u, rfl⟩ := List.isPrefix_of_utf8Encode_append_eq_utf8Encode _ harray
  refine ⟨u, rfl, ?_⟩
  rw [utf8_append] at h
  exact List.append_cancel_left h

/-- A byte of a character is the character or at least 128, and always less than 248. -/
theorem bounds_of_mem_utf8EncodeChar (hx : x ∈ String.utf8EncodeChar c) :
    (x.toNat = c.toNat ∨ 128 ≤ x.toNat) ∧ x.toNat < 248 := by
  have hc : c.val.toNat < 0x110000 := by
    rcases c.valid with h | h
    · exact Nat.lt_trans h (by decide)
    · exact h.2
  have hnat : c.toNat = c.val.toNat := rfl
  unfold String.utf8EncodeChar at hx
  dsimp only at hx
  split_ifs at hx
  all_goals
    simp only [List.mem_cons, List.not_mem_nil, or_false] at hx
  · rw [hx, UInt8.toNat_ofNat']
    omega
  · rcases hx with rfl | rfl
    all_goals
      rw [UInt8.toNat_ofNat']
      omega
  · rcases hx with rfl | rfl | rfl
    all_goals
      rw [UInt8.toNat_ofNat']
      omega
  · rcases hx with rfl | rfl | rfl | rfl
    all_goals
      rw [UInt8.toNat_ofNat']
      omega

/-- A byte below 128 is a character. -/
theorem exists_of_mem_utf8 (hx : x ∈ utf8 s) (hlt : x.toNat < 128) :
    ∃ c ∈ s, c.toNat = x.toNat := by
  obtain ⟨c, hc, hx⟩ := List.mem_flatMap.1 hx
  exact ⟨c, hc, ((bounds_of_mem_utf8EncodeChar hx).1.resolve_right (Nat.not_le_of_lt hlt)).symm⟩

/-- Some bytes are in no text. -/
theorem lt_of_mem_utf8 (hx : x ∈ utf8 s) : x.toNat < 248 := by
  obtain ⟨c, -, hx⟩ := List.mem_flatMap.1 hx
  exact (bounds_of_mem_utf8EncodeChar hx).2

end Utf8

/-! ### Strings -/

theorem loop_toList (b : ByteArray) (i : ℕ) (r : List UInt8) :
    ByteArray.toList.loop b i r = r.reverse ++ b.data.toList.drop i := by
  induction hn : b.size - i generalizing i r with
  | zero =>
    have hle : b.data.toList.length ≤ i := by
      rw [Array.length_toList, ByteArray.size_data]
      omega
    rw [ByteArray.toList.loop, if_neg (by omega), List.drop_of_length_le hle, List.append_nil]
  | succ n ih =>
    have hlt : i < b.data.toList.length := by
      rw [Array.length_toList, ByteArray.size_data]
      omega
    have hget : b.get! i = b.data.toList[i] := by
      unfold ByteArray.get!
      simp at hlt
      simp [hlt]
    rw [ByteArray.toList.loop, if_pos (by omega), ih _ _ (by omega), List.drop_eq_getElem_cons hlt,
      List.reverse_cons, List.append_assoc, hget]
    rfl

theorem toList_byteArray (b : ByteArray) : b.toList = b.data.toList :=
  (loop_toList b 0 []).trans (List.nil_append _)

/-- The bytes of a string. -/
theorem toList_toUTF8 (s : String) : s.toUTF8.toList = utf8 s.toList := by
  rw [toList_byteArray, String.toUTF8_eq_toByteArray, ← String.utf8Encode_toList]
  unfold utf8 List.utf8Encode
  exact List.data_toByteArray ▸ rfl

theorem toUTF8_toList_inj {s t : String} (h : s.toUTF8.toList = t.toUTF8.toList) : s = t := by
  rw [toList_toUTF8, toList_toUTF8] at h
  rw [← String.ofList_toList (s := s), utf8_inj h, String.ofList_toList]

end Basis
end CS162

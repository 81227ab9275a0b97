/-
# The life of a file

`projects1-3/src/filesys/inode.c`, lines 537-561, over the calls of
`Filesys/FilesBytes.lean`: a file is made, written to, removed and closed.

`inode_close` of a removed inode reads it and releases its sector, and no other:
`free_blocks` is not called.  The free map is as it was before if and only if the
file never had a byte (`fileLife_freeMap`).
-/

import CS162.Filesys.FilesBytes
import CS162.Filesys.OpenInodes

namespace CS162
namespace Filesys

open CS162.Basis

/-! ### Making, writing, removing -/

/-- `inode_write_at` of buffers at offsets: whether all were written. -/
def writeAll (p : InodePtr) : List (List UInt8 × ℕ) → Kernel Bool
  | [] => return true
  | (buffer, offset) :: ws => do
    let n ← inodeWriteAt p buffer offset
    let rest ← writeAll p ws
    return n == buffer.length && rest

/-- A file is made, written to, removed and closed by the only one that has it open. -/
def fileLife (length : ℕ) (ws : List (List UInt8 × ℕ)) : Kernel Bool := do
  let p ← makeFile length
  match p with
  | none => return false
  | some p =>
    let ok ← writeAll p ws
    inodeRemove p
    inodeClose p
    return ok

/-- The length of a file after writes. -/
def finalLength (length : ℕ) (ws : List (List UInt8 × ℕ)) : ℕ :=
  ws.foldl (fun n w => max n (w.2 + w.1.length)) length

theorem finalLength_cons (length : ℕ) (w : List UInt8 × ℕ) (ws : List (List UInt8 × ℕ)) :
    finalLength length (w :: ws) = finalLength (max length (w.2 + w.1.length)) ws := rfl

theorem le_finalLength (length : ℕ) (ws : List (List UInt8 × ℕ)) :
    length ≤ finalLength length ws := by
  induction ws generalizing length with
  | nil => exact Nat.le_refl _
  | cons w ws ih => exact (Nat.le_max_left _ _).trans (ih _)

/-- A file stays without bytes if nothing is written to it. -/
theorem finalLength_eq_zero {length : ℕ} {ws : List (List UInt8 × ℕ)} :
    finalLength length ws = 0 ↔ length = 0 ∧ ∀ w ∈ ws, w.2 + w.1.length = 0 := by
  induction ws generalizing length with
  | nil => simp [finalLength]
  | cons w ws ih =>
    rw [finalLength_cons, ih, List.forall_mem_cons, ← and_assoc, Nat.max_eq_zero_iff]

theorem sectorsOf_mono {m n : ℕ} (h : m ≤ n) : sectorsOf m ≤ sectorsOf n := by
  have hdiv : (m + 511) / 512 ≤ (n + 511) / 512 := Nat.div_le_div_right (by omega)
  exact Nat.add_le_add hdiv (Finset.card_le_card (tables_subset hdiv))

/-- A file takes one sector if and only if it has no bytes. -/
theorem sectorsOf_eq_one {n : ℕ} : sectorsOf n = 1 ↔ n = 0 := by
  constructor
  · intro h
    have hroot : 0 < (tables ((n + 511) / 512)).card :=
      Finset.card_pos.2 ⟨.root, mem_tables.2 trivial⟩
    unfold sectorsOf slots at h
    omega
  · rintro rfl
    exact slots_zero

section Life

variable {fm : Tree} {files : FileTable} {σ σ' : FsState} {p : InodePtr} {inode : Inode}

/-- What calls that grew the file of an inode from `len` to `len'` bytes did. -/
structure GrewFile (fm : Tree) (files : FileTable) (x : BlockSector) (len len' : ℕ)
    (σ σ' : FsState) : Prop where
  files : ∃ t, Files fm (Function.update files x (some (t, len'))) σ'
  same : Same σ σ'
  order : σ'.freeMap = σ.freeMap.taken (sectorsOf len' - sectorsOf len)
  count : σ'.freeMap.free.card + sectorsOf len' = σ.freeMap.free.card + sectorsOf len

theorem GrewFile.trans {x : BlockSector} {len₁ len₂ len₃ : ℕ} {σ₁ σ₂ σ₃ : FsState}
    {files' : FileTable} (h : GrewFile fm files x len₁ len₂ σ₁ σ₂)
    (h' : GrewFile fm files' x len₂ len₃ σ₂ σ₃) (hlen : len₁ ≤ len₂) (hlen' : len₂ ≤ len₃)
    (hfiles : ∀ t, Function.update files' x (some t) = Function.update files x (some t)) :
    GrewFile fm files x len₁ len₃ σ₁ σ₃ := by
  have hle := sectorsOf_mono hlen
  have hle' := sectorsOf_mono hlen'
  have hcount := h.count
  have hcount' := h'.count
  refine ⟨?_, h.same.trans h'.same, ?_, by omega⟩
  · obtain ⟨t, ht⟩ := h'.files
    exact ⟨t, hfiles _ ▸ ht⟩
  · rw [h'.order, h.order, Bitmap.taken_taken]
    exact congrArg _ (by omega)

/-- **One write.** -/
theorem Files.grewFile (h : Files fm files σ) (hp : σ.inodes p = some inode)
    (hdeny : inode.denyWriteCnt = 0) {t : Tree} {len : ℕ}
    (hf : files inode.sector = some (t, len)) (hmem : σ.Memory) {buffer : List UInt8} {offset : ℕ}
    (hcap : offset + buffer.length ≤ 512 * capacity)
    (hroom : sectorsOf (max len (offset + buffer.length)) ≤ σ.freeMap.free.card + sectorsOf len) :
    Returns (inodeWriteAt p buffer offset) σ fun n σ' => n = buffer.length ∧
      GrewFile fm files inode.sector len (max len (offset + buffer.length)) σ σ' := by
  have hfile := h.fileAt hf
  have henough : Enough σ t.blocks ((offset + buffer.length + 511) / 512) := by
    refine ⟨hmem, ?_⟩
    have hle := sectorsOf_mono (Nat.le_max_right len (offset + buffer.length))
    have hblocks : slots t.blocks = sectorsOf len := by rw [sectorsOf, hfile.blocks]
    rw [hblocks]
    exact Nat.le_trans hle hroom
  rcases h.inodeWriteAt_cases hp hf hdeny hcap with hok | ⟨hno, -⟩
  swap
  · exact absurd henough hno
  refine hok.mono fun n σ' h' => ?_
  obtain ⟨rfl, t', hw⟩ := h'
  have hused : t.used = sectorsOf len := by rw [hfile.used, hfile.blocks, sectorsOf]
  have hused' : t'.used = sectorsOf (max len (offset + buffer.length)) := by
    rw [hw.file.used, hw.file.blocks, sectorsOf]
  have horder := hw.order
  have hcount := hw.count
  rw [hused, hused'] at horder hcount
  exact ⟨rfl, ⟨t', h.wroteAt hf hw⟩, hw.same, horder, hcount⟩

/-- **Any number of writes.**  By induction on them. -/
theorem Files.writeAll_returns (ws : List (List UInt8 × ℕ)) :
    ∀ {files : FileTable} {σ : FsState} {t : Tree} {len : ℕ}, Files fm files σ →
      σ.inodes p = some inode → inode.denyWriteCnt = 0 → files inode.sector = some (t, len) →
      σ.Memory → finalLength len ws ≤ 512 * capacity →
      sectorsOf (finalLength len ws) ≤ σ.freeMap.free.card + sectorsOf len →
      Returns (writeAll p ws) σ fun ok σ' => ok = true ∧
        GrewFile fm files inode.sector len (finalLength len ws) σ σ' := by
  induction ws with
  | nil =>
    intro files σ t len h _ _ hf _ _ _
    refine returns_pure.2 ⟨rfl, ⟨t, ?_⟩, .refl σ, ?_, rfl⟩
    · show Files fm (Function.update files inode.sector (some (t, len))) σ
      rw [← hf, Function.update_eq_self]
      exact h
    · show σ.freeMap = σ.freeMap.taken (sectorsOf len - sectorsOf len)
      rw [Nat.sub_self, Bitmap.taken]
  | cons w ws ih =>
    intro files σ t len h hp hdeny hf hmem hcap hroom
    obtain ⟨buffer, offset⟩ := w
    rw [finalLength_cons] at hcap hroom ⊢
    dsimp only at hcap hroom ⊢
    have hle := le_finalLength (max len (offset + buffer.length)) ws
    have hsectors := sectorsOf_mono hle
    refine (h.grewFile hp hdeny hf hmem (by omega) (hsectors.trans hroom)).seq fun n σ₁ h₁ => ?_
    obtain ⟨rfl, hgrew⟩ := h₁
    obtain ⟨t₁, hfiles₁⟩ := hgrew.files
    have hcount := hgrew.count
    have hp₁ : σ₁.inodes p = some inode := by rw [hgrew.same.inodes, hp]
    refine (ih hfiles₁ hp₁ hdeny (Function.update_self ..) (hgrew.same.memory hmem) hcap
      (by omega)).seq fun ok σ₂ h₂ => ?_
    obtain ⟨rfl, hgrew₂⟩ := h₂
    refine returns_pure.2 ⟨by rw [beq_self_eq_true]; rfl, ?_⟩
    exact hgrew.trans hgrew₂ (Nat.le_max_left _ _) hle fun t => Function.update_idem ..

/-- **A file is removed and closed** by the only one that has it open. -/
theorem Files.removeClose_returns (h : Files fm files σ) (hfile : σ.freeMapFile ≠ none)
    (hp : σ.inodes p = some inode) (hlast : inode.openCnt = 1) {f : Tree × ℕ}
    (hf : files inode.sector = some f) (hrange : inode.sector.toNat < σ.freeMap.bitCnt) :
    Returns (do inodeRemove p; inodeClose p) σ fun _ σ' =>
      σ'.freeMap = σ.freeMap.setMultiple inode.sector.toNat 1 false := by
  have htaken : σ.freeMap.bits inode.sector.toNat = true := by
    rw [← h.root hf]
    exact (h.claimed hf).taken .root (.inl (h.fileAt hf).placed.root)
  have hhold := h.hold hp hf
  set removed : Inode := { inode with removed := true }
  set σ₁ : FsState := σ.put p (some removed)
  have hinv : FreeMapFile fm none (σ₁.leaving p removed) := by
    refine ⟨by simp, fun q hq => ?_, fun _ => (h.freeMap.file hfile).congr fun _ _ => rfl⟩
    obtain ⟨inode', hq', hrest⟩ := hhold.inode q hq
    have hne : q ≠ p := fun hqp => hhold.notHeld q hq (by rw [hqp])
    exact ⟨inode', (FsState.put_of_ne σ₁ _ hne).trans ((FsState.put_of_ne σ _ hne).trans hq'), hrest⟩
  rw [returns_bind_of_run (run_inodeRemove hp)]
  obtain ⟨_, σ₃, hrelease, hmap⟩ := hinv.release hfile hrange htaken
  refine ⟨(), σ₃.put p none, ?_, hmap⟩
  rw [run_inodeClose_last (FsState.put_self σ p (some removed)) hlast, if_pos rfl]
  exact run_bind_of_run hrelease

/-- The free map after `n` sectors were taken and one of them released is the one before
if and only if `n = 1`. -/
theorem release_taken_iff {b : Bitmap} {n i : ℕ} (hn : 1 ≤ n) (hfree : b.bits i = false)
    (htaken : (b.taken n).bits i = true) (hcount : (b.taken n).free.card + n = b.free.card) :
    (b.taken n).setMultiple i 1 false = b ↔ n = 1 := by
  constructor
  · intro heq
    have hsub : ((b.taken n).setMultiple i 1 false).free ⊆ insert i (b.taken n).free := by
      intro j hj
      obtain ⟨hlt, hbit⟩ := Bitmap.mem_free.1 hj
      rw [Bitmap.bits_setMultiple_one] at hbit
      by_cases hij : j = i
      · exact Finset.mem_insert.2 (.inl hij)
      · rw [if_neg hij] at hbit
        exact Finset.mem_insert_of_mem (Bitmap.mem_free.2 ⟨hlt, hbit⟩)
    have hcard := (Finset.card_le_card hsub).trans (Finset.card_insert_le _ _)
    rw [heq] at hcard
    omega
  · rintro rfl
    cases hnth : b.nth 0 with
    | none =>
      have hsame : b.taken 1 = b := by
        unfold Bitmap.nth at hnth
        rw [Bitmap.taken, hnth]
        rfl
      rw [hsame, hfree] at htaken
      cases htaken
    | some k =>
      have hone : b.taken 1 = b.setMultiple k 1 true := Bitmap.taken_succ hnth
      rw [hone, Bitmap.bits_setMultiple_one] at htaken
      by_cases hik : i = k
      · rw [hone, hik, Bitmap.setMultiple_undo b (hik ▸ hfree)]
      · rw [if_neg hik, hfree] at htaken
        cases htaken

/-- The life of a file. -/
theorem Files.fileLife_returns (h : Files fm files σ) (hfile : σ.freeMapFile ≠ none) (hmem : σ.Memory)
    {length : ℕ} {ws : List (List UInt8 × ℕ)} (hcap : finalLength length ws ≤ maxLength)
    (hroom : sectorsOf (finalLength length ws) ≤ σ.freeMap.free.card) :
    Returns (fileLife length ws) σ fun ok σ' => ok = true ∧
      (σ'.freeMap = σ.freeMap ↔ finalLength length ws = 0) := by
  have hmax : maxLength = 512 * capacity := rfl
  have hcapacity : capacity = 16524 := rfl
  have hle := le_finalLength length ws
  have hsectors := sectorsOf_mono hle
  have hpos : 1 ≤ sectorsOf length := (sectorsOf_eq_one.2 rfl).symm.le.trans (sectorsOf_mono (Nat.zero_le _))
  unfold fileLife
  refine (h.makeFile_returns (by omega : length < 2 ^ 31)).seq fun p σ₂ h₂ => ?_
  obtain ⟨rfl, σ₁, t, hmade⟩ | ⟨-, hno⟩ := h₂
  swap
  · rw [bytesToSectors_of_lt (by omega)] at hno
    exact absurd ⟨hmem, hsectors.trans hroom⟩ hno
  have hwrote := hmade.wrote (by omega)
  have hlen : max 0 (length + ([] : List UInt8).length) = length := by simp
  have hfileAt := hwrote.file
  rw [hlen] at hfileAt
  have hused : t.used = sectorsOf length := by rw [hfileAt.used, hfileAt.blocks, sectorsOf]
  have hblank : (Tree.blank (newInodeDisk length false)).used = 0 := rfl
  have hmap₂ : σ₂.freeMap = σ₁.freeMap := by rw [hmade.opened]; rfl
  have horder : σ₂.freeMap = σ.freeMap.taken (sectorsOf length) := by
    rw [hmap₂, hwrote.order, hused, hblank, Nat.sub_zero]
  have hcount : σ₂.freeMap.free.card + sectorsOf length = σ.freeMap.free.card := by
    have hcount := hwrote.count
    rw [hused, hblank] at hcount
    rw [hmap₂]
    exact hcount
  have hp : σ₂.inodes σ.nextPtr = some ⟨t.sector .root, 1, false, 0⟩ := by
    rw [hmade.opened, ← hwrote.same.nextPtr]
    exact Function.update_self ..
  have hmem₂ : σ₂.Memory := by
    rw [hmade.opened]
    exact fun n => hwrote.same.memory hmem (n + 1)
  have hfile₂ : σ₂.freeMapFile ≠ none := by
    rw [hmade.opened]
    show σ₁.freeMapFile ≠ none
    rwa [hwrote.same.freeMapFile]
  dsimp only
  refine ((hmade.sideBySide h (by omega)).writeAll_returns ws hp rfl (Function.update_self ..) hmem₂
    (by omega) (by omega)).seq fun ok σ₃ h₃ => ?_
  obtain ⟨rfl, hgrew⟩ := h₃
  obtain ⟨t₃, hfiles₃⟩ := hgrew.files
  have horder₃ : σ₃.freeMap = σ.freeMap.taken (sectorsOf (finalLength length ws)) := by
    rw [hgrew.order, horder, Bitmap.taken_taken, Nat.add_sub_cancel' hsectors]
  have hcount₃ := hgrew.count
  have hp₃ : σ₃.inodes σ.nextPtr = some ⟨t.sector .root, 1, false, 0⟩ := by
    rw [hgrew.same.inodes, hp]
  have hfile₃ : σ₃.freeMapFile ≠ none := by rwa [hgrew.same.freeMapFile]
  obtain ⟨hlt, hfree⟩ := Bitmap.mem_free.1 (hmade.free hmade.root_live)
  have hbitCnt : σ₃.freeMap.bitCnt = σ.freeMap.bitCnt := by
    rw [hgrew.same.bitCnt, hmap₂, hwrote.same.bitCnt]
  have htaken : σ₃.freeMap.bits (t.sector .root).toNat = true := by
    have hclaimed := (hfiles₃.claimed (Function.update_self ..)).taken .root
      (.inl (hfiles₃.fileAt (Function.update_self ..)).placed.root)
    rwa [hfiles₃.root (Function.update_self ..)] at hclaimed
  have hclose := hfiles₃.removeClose_returns hfile₃ hp₃ rfl (Function.update_self ..)
    (hbitCnt.symm ▸ hlt)
  rw [← bind_assoc]
  refine hclose.seq fun _ σ₄ h₄ => returns_pure.2 ⟨rfl, ?_⟩
  dsimp only at h₄
  rw [h₄, ← sectorsOf_eq_one, horder₃]
  rw [horder₃] at htaken hcount₃
  exact release_taken_iff (hpos.trans hsectors) hfree htaken (hcount₃.trans hcount)

/-- **The free map after the life of a file** is what it was before if and only if the
file never had a byte. -/
theorem fileLife_freeMap (h : Files fm files σ) (hfile : σ.freeMapFile ≠ none) (hmem : σ.Memory)
    {length : ℕ} {ws : List (List UInt8 × ℕ)} (hcap : finalLength length ws ≤ maxLength)
    (hroom : sectorsOf (finalLength length ws) ≤ σ.freeMap.free.card) :
    Returns (fileLife length ws) σ fun ok σ' => ok = true ∧
      (σ'.freeMap = σ.freeMap ↔ length = 0 ∧ ∀ w ∈ ws, w.2 + w.1.length = 0) := by
  rw [← finalLength_eq_zero]
  exact h.fileLife_returns hfile hmem hcap hroom

/-- A formatted device of `1024` sectors has room for a file of one block. -/
theorem freeMapCreate_room : Returns freeMapCreate (fresh 1024 fun _ => Sector.zero) fun _ σ =>
    ∃ fm, Files fm (fun _ => none) σ ∧ σ.freeMapFile ≠ none ∧ σ.Memory ∧
      132 ≤ σ.freeMap.free.card := by
  refine (fresh_formatted (by decide) (by decide)).mono fun _ σ h => ?_
  obtain ⟨fm, hf, hcard⟩ := h
  have hsize : (1024 : BlockSector).toNat = 1024 := rfl
  exact ⟨fm, hf.files, by simp [hf.freeMapFile], hf.memory, by omega⟩

/-- A file without a byte, on a device just formatted. -/
theorem fileLife_freeMap_empty :
    Returns freeMapCreate (fresh 1024 fun _ => Sector.zero) fun _ σ =>
      Returns (fileLife 0 [([], 0)]) σ fun ok σ' => ok = true ∧ σ'.freeMap = σ.freeMap := by
  refine freeMapCreate_room.mono fun _ σ h => ?_
  obtain ⟨fm, hf, hfile, hmem, hroom⟩ := h
  have hone : sectorsOf (finalLength 0 [([], 0)]) = 1 := sectorsOf_eq_one.2 rfl
  refine (fileLife_freeMap hf hfile hmem (by decide) (by omega)).mono
    fun ok σ' h' => ⟨h'.1, h'.2.2 ⟨rfl, by simp⟩⟩

/-- A file of one byte. -/
theorem fileLife_leaks :
    Returns freeMapCreate (fresh 1024 fun _ => Sector.zero) fun _ σ =>
      Returns (fileLife 1 []) σ fun ok σ' => ok = true ∧ σ'.freeMap ≠ σ.freeMap := by
  refine freeMapCreate_room.mono fun _ σ h => ?_
  obtain ⟨fm, hf, hfile, hmem, hroom⟩ := h
  have hslots : sectorsOf (finalLength 1 []) ≤ 132 := slots_le 1
  refine (hf.fileLife_returns hfile hmem (by decide) (hslots.trans hroom)).mono
    fun ok σ' h' => ⟨h'.1, fun heq => ?_⟩
  exact absurd (h'.2.1 heq) Nat.one_ne_zero

end Life

end Filesys
end CS162

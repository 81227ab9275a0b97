/-
# The bytes of a file

`projects1-3/src/filesys/inode.c`, lines 190-235, 563-615 and 640-685:
`byte_to_sector` and the loops of `inode_read_at` and `inode_write_at`.

`FileAt` says that a file of `len` bytes lies on the sectors as an index tree.
Its bytes are those of its data blocks, one after the other (`Tree.bytes`).  The
loops go through them sector by sector: `readLoop_returns` and
`writeLoop_returns` say that they read a run of the bytes and overwrite one.
-/

import CS162.Basis.Blocks
import CS162.Filesys.InodeGrow

namespace CS162
namespace Filesys

open CS162.Basis

/-- An inode of length `len` is stored, its blocks being those of the tree `t`. -/
structure Laid (σ : FsState) (t : Tree) (len : ℕ) : Prop where
  placed : Placed ∅ σ t
  tables : t.tables = tables t.blocks
  length : (t.table .root).length = len
  capacity : t.blocks ≤ capacity

/-- A file of `len` bytes lies on the sectors as the tree `t`: it has a block for
every byte. -/
structure FileAt (σ : FsState) (t : Tree) (len : ℕ) : Prop extends Laid σ t len where
  blocks : t.blocks = (len + 511) / 512

/-- The bytes of the data blocks. -/
def Tree.bytes (t : Tree) (σ : FsState) : ℕ → UInt8 :=
  entry fun b => σ.store (t.sector (.data b))

/-- The index blocks of a tree are where they were. -/
theorem Placed.congr {buf : Set Slot} {σ σ' : FsState} {t : Tree} (h : Placed buf σ t)
    (hstore : ∀ s ∈ t.tables, s ∉ buf → σ'.store (t.sector s) = σ.store (t.sector s)) :
    Placed buf σ' t :=
  { h with
    stored := fun s hs hn => (hstore s hs hn).trans (h.stored s hs hn) }

section Laid

variable {σ σ' : FsState} {t : Tree} {len : ℕ}

/-- Only what the index blocks hold matters. -/
theorem Laid.congr (h : Laid σ t len)
    (hstore : ∀ s ∈ t.tables, σ'.store (t.sector s) = σ.store (t.sector s)) : Laid σ' t len :=
  { h with placed := h.placed.congr fun s hs _ => hstore s hs }

theorem FileAt.congr (h : FileAt σ t len)
    (hstore : ∀ s ∈ t.tables, σ'.store (t.sector s) = σ.store (t.sector s)) : FileAt σ' t len :=
  ⟨h.toLaid.congr hstore, h.blocks⟩

theorem FileAt.len_le (h : FileAt σ t len) : len ≤ 512 * t.blocks := by
  have := h.blocks
  omega

theorem Laid.used (h : Laid σ t len) : t.used = slots t.blocks := by
  rw [Tree.used, h.tables, slots]

theorem FileAt.lt_blocks (h : FileAt σ t len) {pos : ℕ} (hpos : pos < len) :
    pos / 512 < t.blocks := by
  have := h.blocks
  omega

/-- The inode is stored. -/
theorem Laid.store_root (h : Laid σ t len) : σ.store (t.sector .root) = t.table .root :=
  h.placed.stored .root h.placed.root (by simp)

/-- A data block is none of the index blocks. -/
theorem Laid.data_ne (h : Laid σ t len) {b : ℕ} (hb : b < t.blocks) {s : Slot} (hs : s ∈ t.tables) :
    t.sector (.data b) ≠ t.sector s := by
  intro he
  obtain rfl := h.placed.distinct _ (.inr ⟨b, hb, rfl⟩) s (.inl hs) he
  exact h.placed.noData b hs

/-- Two data blocks are in two sectors. -/
theorem Laid.data_inj (h : Laid σ t len) {b b' : ℕ} (hb : b < t.blocks) (hb' : b' < t.blocks)
    (he : t.sector (.data b) = t.sector (.data b')) : b = b' :=
  Slot.data.inj (h.placed.distinct _ (.inr ⟨b, hb, rfl⟩) _ (.inr ⟨b', hb', rfl⟩) he)

end Laid

/-! ### `byte_to_sector` and `inode_read_at` -/

section Read

variable {σ : FsState} {t : Tree} {len : ℕ}

theorem inodeLength_returns (h : Laid σ t len) :
    Returns (inodeLength (t.sector .root)) σ fun length σ' => length = len ∧ σ' = σ := by
  unfold inodeLength readSector
  rw [bind_assoc, returns_get_bind, pure_bind, returns_pure, h.store_root]
  exact ⟨h.length, rfl⟩

/-- **`byte_to_sector`** finds the data block a byte of the file is in. -/
theorem byteToSector_returns (h : Laid σ t len) {pos : ℕ} (hblock : pos < len → pos / 512 < t.blocks) :
    Returns (byteToSector (t.sector .root) pos) σ fun sector σ' =>
      σ' = σ ∧ (pos < len → sector = t.sector (.data (pos / 512))) := by
  unfold byteToSector
  refine (inodeLength_returns h).seq fun length σ₁ h₁ => ?_
  obtain ⟨rfl, rfl⟩ := h₁
  split_ifs with hpos
  · have hlt : pos < len := Int.ofNat_lt.1 hpos
    have hpath := t.indexPath_eq h.placed.linked h.tables
      (fun s hs => h.placed.stored s hs (by simp)) (hblock hlt) h.capacity
    rw [returns_get_bind, show pos / blockSectorSize = pos / 512 from rfl, hpath]
    dsimp only
    rw [returns_pure]
    exact ⟨rfl, fun _ => rfl⟩
  · rw [returns_pure]
    exact ⟨rfl, fun hlt => absurd (Int.ofNat_lt.2 hlt) hpos⟩

/-- The chunk of one turn. -/
theorem chunkSize_toNat (len size offset : ℕ) :
    (chunkSize len size offset).toNat = min size (min (len - offset) (512 - offset % 512)) := by
  unfold chunkSize blockSectorSize
  omega

/-- A turn without a chunk is past the end of the file. -/
theorem chunkSize_le_zero {len size offset : ℕ} (hsize : size ≠ 0) :
    chunkSize len size offset ≤ 0 ↔ len ≤ offset := by
  unfold chunkSize blockSectorSize
  omega

/-- **The loop of `inode_read_at`** reads the bytes of the file, as far as it
goes.  By induction on the bytes still asked for. -/
theorem readLoop_returns (h : FileAt σ t len) (size : ℕ) : ∀ offset : ℕ,
    Returns (readLoop (t.sector .root) size offset) σ fun bytes σ' =>
      σ' = σ ∧ bytes = run (t.bytes σ) offset (min size (len - offset)) := by
  induction size using Nat.strong_induction_on with
  | _ size ih =>
    intro offset
    rw [readLoop]
    split_ifs with hsize
    · subst hsize
      rw [returns_pure, Nat.zero_min]
      exact ⟨rfl, rfl⟩
    refine (byteToSector_returns h.toLaid h.lt_blocks).seq fun sector σ₁ h₁ => ?_
    obtain ⟨rfl, hsector⟩ := h₁
    refine (inodeLength_returns h.toLaid).seq fun length σ₂ h₂ => ?_
    obtain ⟨rfl, rfl⟩ := h₂
    split_ifs with hchunk
    · rw [chunkSize_le_zero hsize] at hchunk
      rw [returns_pure, Nat.sub_eq_zero_of_le hchunk, Nat.min_zero]
      exact ⟨rfl, rfl⟩
    · rw [chunkSize_le_zero hsize, not_le] at hchunk
      dsimp only [readBytes]
      rw [chunkSize_toNat, hsector hchunk, bind_assoc, returns_get_bind, pure_bind]
      set chunk := min size (min (len - offset) (512 - offset % 512)) with hc
      have hslice : slice (σ₂.store (t.sector (.data (offset / 512)))) (offset % 512) chunk =
          run (t.bytes σ₂) offset chunk :=
        slice_block (fun b => σ₂.store (t.sector (.data b))) (by omega)
      have hsplit : min size (len - offset) =
          chunk + min (size - chunk) (len - (offset + chunk)) := by omega
      refine (ih (size - chunk) (by omega) (offset + chunk)).seq fun rest σ₃ h₃ => ?_
      obtain ⟨rfl, rfl⟩ := h₃
      rw [returns_pure, hsplit, run_add]
      exact ⟨rfl, congrArg (· ++ _) hslice⟩

end Read

/-! ### The loop of `inode_write_at` -/

/-- Writing changed `buffer.length` bytes of the data blocks from `offset` on. -/
structure Overwrote (t : Tree) (offset : ℕ) (buffer : List UInt8) (σ σ' : FsState) : Prop where
  state : σ' = { σ with store := σ'.store }
  bytes : ∀ j < 512 * t.blocks, t.bytes σ' j = overwrite (t.bytes σ) offset buffer j
  outside : ∀ x, (∀ b < t.blocks, t.sector (.data b) ≠ x) → σ'.store x = σ.store x

namespace Overwrote

variable {t : Tree} {offset len : ℕ} {buffer : List UInt8} {σ σ' σ'' : FsState}

theorem refl (t : Tree) (offset : ℕ) (σ : FsState) : Overwrote t offset [] σ σ :=
  ⟨rfl, fun j _ => by rw [overwrite_nil], fun _ _ => rfl⟩

/-- The file lies where it did. -/
theorem laid (hw : Overwrote t offset buffer σ σ') (h : Laid σ t len) : Laid σ' t len :=
  h.congr fun _ hs => hw.outside _ fun _ hb => h.data_ne hb hs

theorem fileAt (hw : Overwrote t offset buffer σ σ') (h : FileAt σ t len) : FileAt σ' t len :=
  ⟨hw.laid h.toLaid, h.blocks⟩

theorem same (hw : Overwrote t offset buffer σ σ') : Same σ σ' := by
  rw [hw.state]
  exact ⟨rfl, rfl, rfl, rfl, rfl, id⟩

theorem freeMap (hw : Overwrote t offset buffer σ σ') : σ'.freeMap = σ.freeMap := by
  rw [hw.state]

/-- **One chunk.** -/
theorem chunk (h : Laid σ t len) (hoff : offset / 512 < t.blocks)
    (hfit : offset % 512 + buffer.length ≤ 512) :
    Overwrote t offset buffer σ { σ with
      store := Function.update σ.store (t.sector (.data (offset / 512)))
        (copyInto (σ.store (t.sector (.data (offset / 512)))) (offset % 512) buffer) } where
  state := rfl
  bytes j hj := by
    have hcopy : _ = overwrite (t.bytes σ) offset buffer :=
      entry_copyInto (fun b => σ.store (t.sector (.data b))) hfit
    rw [← hcopy]
    refine entry_congr ?_
    by_cases hb : j / 512 = offset / 512
    · rw [hb, Function.update_self]
      exact Function.update_self ..
    · rw [Function.update_of_ne hb]
      exact Function.update_of_ne (fun he => hb (h.data_inj (by omega) hoff he)) _ _
  outside x hx := Function.update_of_ne (hx _ hoff).symm _ _

/-- Two runs that follow each other. -/
theorem append {buffer' : List UInt8} (hw : Overwrote t offset buffer σ σ')
    (hw' : Overwrote t (offset + buffer.length) buffer' σ' σ'') :
    Overwrote t offset (buffer ++ buffer') σ σ'' where
  state := by
    rw [hw'.state, hw.state]
  bytes j hj := by
    rw [hw'.bytes j hj, ← overwrite_append]
    exact overwrite_congr (hw.bytes j hj)
  outside x hx := (hw'.outside x hx).trans (hw.outside x hx)

end Overwrote

/-- **The loop of `inode_write_at`** overwrites bytes of the file.  By induction on
the number of bytes still to be written. -/
theorem writeLoop_returns {t : Tree} {len : ℕ} (k : ℕ) :
    ∀ {σ : FsState} {buffer : List UInt8} {offset : ℕ}, Laid σ t len → buffer.length = k →
      offset + buffer.length ≤ len → offset + buffer.length ≤ 512 * t.blocks →
      Returns (writeLoop (t.sector .root) buffer offset) σ fun n σ' =>
        n = buffer.length ∧ Overwrote t offset buffer σ σ' := by
  induction k using Nat.strong_induction_on with
  | _ k ih =>
    intro σ buffer offset h hk hend hblocks
    rw [writeLoop]
    split_ifs with hsize
    · obtain rfl := List.length_eq_zero_iff.1 hsize
      rw [returns_pure]
      exact ⟨rfl, .refl t offset σ⟩
    refine (byteToSector_returns h fun _ => by omega).seq fun sector σ₁ h₁ => ?_
    obtain ⟨rfl, hsector⟩ := h₁
    refine (inodeLength_returns h).seq fun length σ₂ h₂ => ?_
    obtain ⟨rfl, rfl⟩ := h₂
    have hlt : offset < len := by omega
    rw [dif_neg (by rw [chunkSize_le_zero hsize]; omega)]
    dsimp only [writeBytes]
    rw [chunkSize_toNat, hsector hlt, returns_modify_bind]
    set chunk := min buffer.length (min (len - offset) (512 - offset % 512)) with hc
    have hlen : (buffer.take chunk).length = chunk := by
      rw [List.length_take]
      omega
    have hdrop : (buffer.drop chunk).length = buffer.length - chunk := List.length_drop ..
    have hw := Overwrote.chunk h (by omega : offset / 512 < t.blocks)
      (by omega : offset % 512 + (buffer.take chunk).length ≤ 512)
    refine (ih (buffer.length - chunk) (by omega) (hw.laid h) hdrop
      (by omega : offset + chunk + _ ≤ _) (by omega)).seq fun rest σ₃ h₃ => ?_
    obtain ⟨rfl, hw'⟩ := h₃
    rw [returns_pure]
    have hoff : offset + chunk = offset + (buffer.take chunk).length := by rw [hlen]
    rw [hoff] at hw'
    have happ := hw.append hw'
    rw [List.take_append_drop] at happ
    exact ⟨by omega, happ⟩

end Filesys
end CS162

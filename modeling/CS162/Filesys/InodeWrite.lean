/-
# Writing and creating files

`projects1-3/src/filesys/inode.c`, lines 411-486, 617-685 and 705-740, and
`bitmap_write` of `lib/kernel/bitmap.c`.

`Wrote` says what a call that wrote `buffer` at `offset` to a file of `len` bytes
did: the file's tree has grown, the bytes at `offset` are the buffer's, and every
other byte of the data blocks is what its sector held before.  `inode_resize` and
`inode_create` are such calls with an empty buffer.  A call does this, or it
returns failure and the free sectors or the memory did not suffice (`Enough`).

`bitmapWrites` closes the circle: what is used of `bitmap_write` in growing other
files holds of the real one, as the free map's file has its full length from the
start.
-/

import CS162.Filesys.InodeBytes

namespace CS162
namespace Filesys

open CS162.Basis

/-- Memory, and free sectors for growing a tree of `m` blocks to `goal` blocks. -/
def Enough (σ : FsState) (m goal : ℕ) : Prop :=
  σ.Memory ∧ slots goal ≤ σ.freeMap.free.card + slots m

/-- A call that wrote `buffer` at `offset` to the data blocks of the tree `t`. -/
structure Altered (own : Set BlockSector) (inv : FsState → Prop) (σ : FsState) (t : Tree)
    (offset : ℕ) (buffer : List UInt8) (σ' : FsState) (t' : Tree) : Prop
    extends Grown σ t σ' t' where
  claimed : Claimed own σ' t'
  inv : inv σ'
  bytes : ∀ j < 512 * t'.blocks, t'.bytes σ' j = overwrite (t'.bytes σ) offset buffer j
  outside : ∀ x ∉ own, (∀ s ∈ t'.live, t'.sector s ≠ x) → σ'.store x = σ.store x
  tail : ∀ j : Fin 512, 60 ≤ j.val → t'.table .root j = t.table .root j

/-- A call that wrote `buffer` at `offset` to the file of `len` bytes at `t`. -/
structure Wrote (own : Set BlockSector) (inv : FsState → Prop) (σ : FsState) (t : Tree) (len : ℕ)
    (offset : ℕ) (buffer : List UInt8) (σ' : FsState) (t' : Tree) : Prop
    extends Altered own inv σ t offset buffer σ' t' where
  file : FileAt σ' t' (max len (offset + buffer.length))

/-! ### The end of a call that grew a tree -/

/-- The inode with its length set. -/
def Tree.setLength (t : Tree) (n : ℕ) : Tree :=
  { t with table := Function.update t.table .root ((t.table .root).setLength n) }

section SetLength

variable {t : Tree} {n : ℕ}

@[simp] theorem Tree.table_setLength_root :
    (t.setLength n).table .root = (t.table .root).setLength n := by
  show Function.update t.table .root ((t.table .root).setLength n) .root = _
  rw [Function.update_self]

theorem Tree.table_setLength_of_ne {s : Slot} (h : s ≠ .root) :
    (t.setLength n).table s = t.table s := by
  show Function.update t.table .root _ s = _
  rw [Function.update_of_ne h]

theorem Tree.word_setLength {p c : Slot} {i : Fin 128} (h : p.child i = some c) :
    ((t.setLength n).table p).word i = (t.table p).word i := by
  by_cases hp : p = .root
  · subst hp
    rw [Tree.table_setLength_root, Sector.word_setLength _ _ (Growing.root_child_lt h)]
  · rw [Tree.table_setLength_of_ne hp]

theorem Tree.Linked.setLength (h : t.Linked) : (t.setLength n).Linked where
  used p i c hp hc hc' := (Tree.word_setLength hc).trans (h.used p i c hp hc hc')
  unused p i c hp hc hc' := (Tree.word_setLength hc).trans (h.unused p i c hp hc hc')

end SetLength

section Finish

variable {own : Set BlockSector} {inv : FsState → Prop} {σ₀ σ : FsState} {t t₁ : Tree}

/-- Storing the inode with its length. -/
theorem Placed.laid (h : Placed {.root} σ t) (htables : t.tables = tables t.blocks) {n : ℕ}
    (hn : n < 2 ^ 31) (hcap : t.blocks ≤ capacity) :
    Laid { σ with store := Function.update σ.store (t.sector .root) ((t.table .root).setLength n) }
      (t.setLength n) n where
  placed :=
    { linked := h.linked.setLength
      noData := h.noData
      root := h.root
      distinct := h.distinct
      stored := fun s hs _ => by
        by_cases hroot : s = .root
        · subst hroot
          rw [Tree.table_setLength_root]
          exact Function.update_self ..
        · rw [Tree.table_setLength_of_ne hroot]
          have hne : t.sector s ≠ t.sector .root :=
            fun he => hroot (h.distinct s (.inl hs) _ (.inl h.root) he)
          show Function.update σ.store _ _ (t.sector s) = _
          rw [Function.update_of_ne hne]
          exact h.stored s hs hroot }
  tables := htables
  length := by rw [Tree.table_setLength_root, Sector.length_setLength _ hn]
  capacity := hcap

/-- **A tree that has grown, with its inode stored.** -/
theorem Growing.store (h : Growing own inv σ₀ t {.root} σ t₁)
    (hbw : ∀ {σ σ'}, inv σ → Same σ σ' → (∀ x ∈ own, σ'.store x = σ.store x) → inv σ') (n : ℕ) :
    Altered own inv σ₀ t n []
      { σ with
        store := Function.update σ.store (t₁.sector .root) ((t₁.table .root).setLength n) }
      (t₁.setLength n) := by
  have hroot : Slot.root ∈ t₁.live := .inl h.placed.root
  have hnotOwn := h.claimed.notOwn .root hroot
  have hsame : Same σ { σ with
      store := Function.update σ.store (t₁.sector .root) ((t₁.table .root).setLength n) } :=
    ⟨rfl, rfl, rfl, rfl, rfl, id⟩
  refine ⟨⟨h.same.trans hsame, h.blocks, h.tables, h.keep, h.fresh, h.bits, h.count, h.order,
    h.nth⟩, ⟨h.claimed.nonzero, h.claimed.taken, h.claimed.notOwn⟩, hbw h.inv hsame
    fun x hx => ?_, fun j hj => ?_, fun x hx hno => ?_, fun j hj => ?_⟩
  · refine Function.update_of_ne ?_ _ _
    rintro rfl
    exact hnotOwn hx
  · -- no index block is a data block's sector
    rw [overwrite_nil]
    have hb : j / 512 < t₁.blocks := by
      have : j < 512 * t₁.blocks := hj
      omega
    have hlive : Slot.data (j / 512) ∈ t₁.live := .inr ⟨_, hb, rfl⟩
    have hdata : ∀ s ∈ t₁.tables, t₁.sector s ≠ t₁.sector (.data (j / 512)) := by
      intro s hs he
      obtain rfl := h.placed.distinct s (.inl hs) _ hlive he
      exact h.placed.noData _ hs
    refine entry_congr ?_
    show Function.update σ.store (t₁.sector .root) _ (t₁.sector (.data (j / 512))) = _
    rw [Function.update_of_ne (hdata _ h.placed.root).symm]
    exact h.outside _ (h.claimed.notOwn _ hlive) fun s hs _ => hdata s hs
  · show Function.update σ.store (t₁.sector .root) _ x = _
    have hne : x ≠ t₁.sector .root := (hno .root hroot).symm
    rw [Function.update_of_ne hne]
    exact h.outside x hx fun s hs _ => hno s (.inl hs)
  · rw [Tree.table_setLength_root, Sector.setLength_tail _ _ hj]
    exact h.tail j (by omega)

/-- A file that has grown to `n` bytes. -/
theorem Growing.finish (h : Growing own inv σ₀ t {.root} σ t₁)
    (hbw : ∀ {σ σ'}, inv σ → Same σ σ' → (∀ x ∈ own, σ'.store x = σ.store x) → inv σ')
    (htables : t₁.tables = tables t₁.blocks) {len n : ℕ} (hlen : len ≤ n)
    (hblocks : t₁.blocks = (n + 511) / 512) (hcap : t₁.blocks ≤ capacity) :
    Wrote own inv σ₀ t len n []
      { σ with
        store := Function.update σ.store (t₁.sector .root) ((t₁.table .root).setLength n) }
      (t₁.setLength n) := by
  have hcapacity : capacity = 16524 := rfl
  refine ⟨h.store hbw n, ?_⟩
  rw [List.length_nil, Nat.add_zero, max_eq_right hlen]
  exact ⟨h.placed.laid htables (by omega) hcap, hblocks⟩

/-- Writing bytes after the file was given its length. -/
theorem Wrote.overwrote {len n offset : ℕ} {buffer : List UInt8} {σ' : FsState}
    (h : Wrote own inv σ₀ t len n [] σ t₁) (hw : Overwrote t₁ offset buffer σ σ')
    (hbw : ∀ {σ σ'}, inv σ → Same σ σ' → (∀ x ∈ own, σ'.store x = σ.store x) → inv σ')
    (hn : max len n = max len (offset + buffer.length)) :
    Wrote own inv σ₀ t len offset buffer σ' t₁ where
  toGrown := h.toGrown.congr rfl hw.freeMap (h.same.trans hw.same)
  file := by
    have hfile := hw.fileAt h.file
    rwa [List.length_nil, Nat.add_zero, hn] at hfile
  claimed := ⟨h.claimed.nonzero, fun s hs => by
    rw [hw.freeMap]
    exact h.claimed.taken s hs, h.claimed.notOwn⟩
  inv := by
    refine hbw h.inv hw.same fun x hx => hw.outside x fun b hb he => ?_
    rw [← he] at hx
    exact h.claimed.notOwn _ (.inr ⟨b, hb, rfl⟩) hx
  bytes j hj := by
    rw [hw.bytes j hj]
    have hold := h.bytes j hj
    rw [overwrite_nil] at hold
    exact overwrite_congr hold
  outside x hx hno := by
    rw [hw.outside x fun b hb => hno _ (.inr ⟨b, hb, rfl⟩)]
    exact h.outside x hx hno
  tail := h.tail

end Finish

/-! ### `inode_resize` -/

theorem same_shift (σ : FsState) : Same σ σ.shift :=
  ⟨rfl, rfl, rfl, rfl, rfl, fun h n => h (n + 1)⟩

section Resize

variable {bitmapWrite : Kernel Bool} {own : Set BlockSector} {inv : FsState → Prop} {σ : FsState}
  {t : Tree} {len : ℕ}

/-- A file's tree as the start of a growth, the inode in a buffer. -/
theorem FileAt.growing (h : FileAt σ t len) (hc : Claimed own σ t) (hr : Reserved own σ)
    (hinv : inv σ) : Growing own inv σ t {.root} σ t :=
  .refl { h.placed with stored := fun s hs _ => h.placed.stored s hs (by simp) } hc hinv hr

/-- **`inode_resize`** to the same number of sectors. -/
theorem inodeResizeWith_same (h : FileAt σ t len) {n : ℕ} (hn : (n + 511) / 512 = t.blocks) :
    Returns (inodeResizeWith bitmapWrite (t.sector .root) n) σ fun ok σ' =>
      (ok = false ∧ σ.memory 0 = false ∧ σ' = σ.shift) ∨
        (ok = true ∧ σ.memory 0 = true ∧ σ' = { σ.shift with
          store := Function.update σ.store (t.sector .root) ((t.table .root).setLength n) }) := by
  have hcapacity : capacity = 16524 := rfl
  have hcap := h.capacity
  have hlen := h.len_le
  unfold inodeResizeWith
  rw [returns_bind_of_run (run_alloc σ)]
  cases hmem : σ.memory 0 with
  | false =>
    rw [if_pos rfl, returns_pure]
    exact .inl ⟨rfl, rfl, rfl⟩
  | true =>
    rw [if_neg (by simp)]
    dsimp only [readSector]
    have hstore : σ.shift.store (t.sector .root) = t.table .root := h.store_root
    rw [bind_assoc, returns_get_bind, pure_bind, hstore, h.length, bytesToSectors_of_lt (by omega),
      bytesToSectors_of_lt (by omega), hn, ← h.blocks, if_neg (lt_irrefl _), if_neg (lt_irrefl _)]
    unfold setDiskLength writeSector
    rw [returns_modify_bind, returns_pure]
    exact .inr ⟨rfl, rfl, rfl⟩

/-- **`inode_resize`** of a file that is to grow. -/
theorem inodeResizeWith_cases (hbw : BitmapWrites bitmapWrite own inv) (h : FileAt σ t len)
    (hc : Claimed own σ t) (hr : Reserved own σ) (hinv : inv σ) {n : ℕ} (hlen : len ≤ n)
    (hn : n ≤ 512 * capacity) :
    Returns (inodeResizeWith bitmapWrite (t.sector .root) n) σ (fun ok σ' =>
        ok = true ∧ ∃ t', Wrote own inv σ t len n [] σ' t') ∨
      ¬Enough σ t.blocks ((n + 511) / 512) ∧
        Ensures (inodeResizeWith bitmapWrite (t.sector .root) n) σ fun ok _ => ok = false := by
  have hcapacity : capacity = 16524 := rfl
  have hcap := h.capacity
  have hblocks := h.blocks
  have hinv' : inv σ.shift := hbw.stable hinv (same_shift σ) fun _ _ => rfl
  have hfile : FileAt σ.shift t len := h.congr fun _ _ => rfl
  have hgrow : Growing own inv σ.shift t {.root} σ.shift t :=
    hfile.growing ⟨hc.nonzero, hc.taken, hc.notOwn⟩ ⟨hr.zero, hr.own⟩ hinv'
  have hshift : ∀ {σ' t' offset buffer}, Wrote own inv σ.shift t len offset buffer σ' t' →
      Wrote own inv σ t len offset buffer σ' t' := fun hw =>
    { hw with toGrown := hw.toGrown.congr rfl rfl ((same_shift σ).trans hw.same) }
  unfold inodeResizeWith
  rw [returns_bind_of_run (run_alloc σ), ensures_bind_of_run (run_alloc σ)]
  cases hmem : σ.memory 0 with
  | false =>
    right
    refine ⟨fun he => ?_, ensures_pure rfl⟩
    rw [he.1 0] at hmem
    cases hmem
  | true =>
    have hread : (readSector (t.sector .root)).run σ.shift = some (t.table .root, σ.shift) := by
      rw [← h.store_root]
      rfl
    rw [if_neg (by simp), returns_bind_of_run hread, ensures_bind_of_run hread, h.length,
      bytesToSectors_of_lt (by omega), bytesToSectors_of_lt (by omega), ← hblocks,
      if_neg (by omega)]
    split_ifs with hmore
    · obtain ⟨⟨ok, d⟩, σ₁, hrun, t₁, buf₁, hs⟩ := allocateBlocksWith_returns hbw hgrow h.tables hcap
        ((n + 511) / 512 - t.blocks)
      dsimp only at hs
      rw [Nat.add_sub_of_le hmore.le] at hs
      rw [returns_bind_of_run hrun, ensures_bind_of_run hrun]
      dsimp only
      cases ok with
      | true =>
        left
        obtain ⟨rfl, htables₁, hge, hle⟩ := hs.done rfl
        have hroot : t₁.sector .root = t.sector .root := hs.growing.keep .root (.inl h.placed.root)
        rw [if_neg (by simp), hs.root, ← hroot]
        unfold setDiskLength writeSector
        rw [returns_modify_bind, returns_pure]
        exact ⟨rfl, _, hshift (hs.growing.finish hbw.stable htables₁ hlen (by omega) (by omega))⟩
      | false =>
        right
        rw [if_pos rfl]
        refine ⟨fun he => ?_, ensures_bind_pure fun _ => rfl⟩
        have hfree : slots ((n + 511) / 512) ≤ σ.shift.freeMap.free.card + t.used := by
          rw [h.used]
          exact he.2
        have hok := hs.ok_of_enough ((same_shift σ).memory he.1) hfree
        cases hok
    · left
      unfold setDiskLength writeSector
      rw [returns_modify_bind, returns_pure]
      exact ⟨rfl, _, hshift (hgrow.finish hbw.stable h.tables hlen (by omega) hcap)⟩

/-! ### `inode_write_at` -/

theorem run_inodeLength (h : Laid σ t len) :
    (inodeLength (t.sector .root)).run σ = some ((len : ℤ), σ) := by
  obtain ⟨length, σ', hrun, rfl, rfl⟩ := inodeLength_returns h
  exact hrun

theorem wrap32_add {m k : ℕ} (h : m + k < 2 ^ 31) :
    wrap32 ((m : ℤ) + (k : ℤ)) = ((m + k : ℕ) : ℤ) := by
  have := wrap32_of_lt h
  push_cast at this ⊢
  exact this

/-- **`inode_write_at`** writes all of the buffer, the file growing if it has to;
or sectors or memory do not suffice and it returns `0`, if it returns. -/
theorem inodeWriteAtWith_cases (hbw : BitmapWrites bitmapWrite own inv) (h : FileAt σ t len)
    (hc : Claimed own σ t) (hr : Reserved own σ) (hinv : inv σ) {p : InodePtr} {inode : Inode}
    (hp : σ.inodes p = some inode) (hsector : inode.sector = t.sector .root)
    (hdeny : inode.denyWriteCnt = 0) {buffer : List UInt8} {offset : ℕ}
    (hend : offset + buffer.length ≤ 512 * capacity) :
    Returns (inodeWriteAtWith bitmapWrite p buffer offset) σ (fun n σ' =>
        n = buffer.length ∧ ∃ t', Wrote own inv σ t len offset buffer σ' t') ∨
      ¬Enough σ t.blocks ((offset + buffer.length + 511) / 512) ∧
        Ensures (inodeWriteAtWith bitmapWrite p buffer offset) σ fun n _ => n = 0 := by
  have hcapacity : capacity = 16524 := rfl
  unfold inodeWriteAtWith
  rw [returns_bind_of_run (run_getInode hp), ensures_bind_of_run (run_getInode hp),
    if_neg (by simp [hdeny]), hsector, wrap32_add (by omega),
    returns_bind_of_run (run_inodeLength h.toLaid), ensures_bind_of_run (run_inodeLength h.toLaid)]
  split_ifs with hgrow
  · have hlen : len ≤ offset + buffer.length := Int.ofNat_le.1 hgrow
    rcases inodeResizeWith_cases hbw h hc hr hinv hlen hend with ⟨ok, σ₁, hrun, rfl, t₁, hw⟩ | hfail
    · left
      have hroot : t₁.sector .root = t.sector .root := hw.keep .root (.inl h.placed.root)
      have hfile := hw.file
      rw [List.length_nil, Nat.add_zero, max_eq_right hlen] at hfile
      rw [returns_bind_of_run hrun, if_neg (by simp), ← hroot]
      refine (writeLoop_returns _ hfile.toLaid rfl le_rfl hfile.len_le).mono fun n σ₂ h₂ => ?_
      obtain ⟨rfl, hover⟩ := h₂
      exact ⟨rfl, t₁, hw.overwrote hover hbw.stable rfl⟩
    · right
      refine ⟨hfail.1, hfail.2.seq fun ok σ₁ hok => ?_⟩
      rw [if_pos hok]
      exact ensures_pure rfl
  · left
    have hlen : offset + buffer.length < len := by
      rw [not_le] at hgrow
      exact Int.ofNat_lt.1 hgrow
    refine (writeLoop_returns _ h.toLaid rfl hlen.le (hlen.le.trans h.len_le)).mono fun n σ₁ h₁ => ?_
    obtain ⟨rfl, hover⟩ := h₁
    -- nothing grew
    have hw : Wrote own inv σ t len 0 [] σ t :=
      ⟨⟨.refl σ t, hc, hinv, fun j _ => by rw [overwrite_nil], fun _ _ _ => rfl, fun _ _ => rfl⟩,
        by rw [List.length_nil, Nat.zero_add, max_eq_left (Nat.zero_le _)]; exact h⟩
    exact ⟨rfl, t, hw.overwrote hover hbw.stable (by omega)⟩

/-- **`inode_write_at`** of a whole file: only for want of memory does it fail. -/
theorem inodeWriteAtWith_whole (h : FileAt σ t len) {p : InodePtr} {inode : Inode}
    (hp : σ.inodes p = some inode) (hsector : inode.sector = t.sector .root)
    (hdeny : inode.denyWriteCnt = 0) {buffer : List UInt8} (hbuffer : buffer.length = len) :
    Returns (inodeWriteAtWith bitmapWrite p buffer 0) σ fun n σ' =>
      (n = 0 ∧ σ.memory 0 = false ∧ σ' = σ.shift) ∨
        (n = buffer.length ∧ σ.memory 0 = true ∧ Overwrote t 0 buffer σ.shift σ') := by
  have hcapacity : capacity = 16524 := rfl
  have hcap := h.capacity
  have hlen := h.len_le
  have hwrap : wrap32 (((0 : ℕ) : ℤ) + (buffer.length : ℤ)) = (len : ℤ) := by
    rw [wrap32_add (m := 0) (k := buffer.length) (by omega), Nat.zero_add, hbuffer]
  unfold inodeWriteAtWith
  rw [returns_bind_of_run (run_getInode hp), if_neg (by simp [hdeny]), hsector, hwrap,
    returns_bind_of_run (run_inodeLength h.toLaid), if_pos le_rfl]
  refine (inodeResizeWith_same h h.blocks.symm).seq fun ok σ₁ h₁ => ?_
  obtain ⟨rfl, hmem, rfl⟩ | ⟨rfl, hmem, hstate⟩ := h₁
  · rw [if_pos rfl, returns_pure]
    exact .inl ⟨rfl, hmem, rfl⟩
  · -- the length is stored again as it was
    have hd : (t.table .root).setLength len = t.table .root := by
      rw [← h.length, Sector.setLength_length]
    have hsame : σ₁ = σ.shift := by
      rw [hstate, hd, ← h.store_root, Function.update_eq_self]
      rfl
    rw [if_neg (by simp), hsame]
    have hend : 0 + buffer.length ≤ len := by omega
    have hshift : Laid σ.shift t len := h.toLaid.congr fun _ _ => rfl
    refine (writeLoop_returns _ hshift rfl hend (hend.trans h.len_le)).mono fun n σ₂ h₂ => ?_
    exact .inr ⟨h₂.1, hmem, h₂.2⟩

end Resize

/-! ### `bitmap_write` -/

/-- The sectors of a file. -/
def Tree.sectors (t : Tree) : Set BlockSector := {x | ∃ s ∈ t.live, t.sector s = x}

/-- The free map's file, once it is open: an inode that is not `held`, of a file
at `fm` as long as the bitmap. -/
structure FreeMapFile (fm : Tree) (held : Option InodePtr) (σ : FsState) : Prop where
  notHeld : ∀ q, σ.freeMapFile = some q → held ≠ some q
  inode : ∀ q, σ.freeMapFile = some q →
    ∃ inode, σ.inodes q = some inode ∧ inode.sector = fm.sector .root ∧ inode.denyWriteCnt = 0
  file : σ.freeMapFile ≠ none → FileAt σ fm σ.freeMap.byteCnt

/-- **`bitmap_write`** fails only for want of memory and writes to the free map's
file only. -/
theorem bitmapWrites (fm : Tree) (held : Option InodePtr) :
    BitmapWrites (bitmapWrite held) fm.sectors (FreeMapFile fm held) where
  stable := by
    intro σ σ' h hsame hstore
    refine ⟨fun q hq => h.notHeld q (hsame.freeMapFile ▸ hq), fun q hq => ?_, fun hq => ?_⟩
    · rw [hsame.inodes]
      exact h.inode q (hsame.freeMapFile ▸ hq)
    · rw [Bitmap.byteCnt, hsame.bitCnt]
      exact (h.file (hsame.freeMapFile ▸ hq)).congr fun s hs => hstore _ ⟨s, .inl hs, rfl⟩
  write := by
    intro σ h hopen
    obtain ⟨q, hq⟩ := Option.ne_none_iff_exists'.1 hopen
    obtain ⟨inode, hp, hsector, hdeny⟩ := h.inode q hq
    have hfile := h.file hopen
    unfold bitmapWrite
    rw [returns_get_bind, hq]
    dsimp only
    rw [if_neg (h.notHeld q hq)]
    refine (inodeWriteAtWith_whole hfile hp hsector hdeny (Bitmap.length_bytes _)).seq
      fun n σ₁ h₁ => ?_
    rw [returns_pure]
    obtain ⟨rfl, hmem, rfl⟩ | ⟨rfl, -, hw⟩ := h₁
    · refine ⟨fun hm => ?_, ⟨h.notHeld, h.inode, fun _ => ?_⟩, same_shift σ, rfl,
        fun _ _ => rfl⟩
      · rw [hm 0] at hmem
        cases hmem
      · exact hfile.congr fun _ _ => rfl
    · have hsame : Same σ σ₁ := (same_shift σ).trans hw.same
      refine ⟨fun _ => by simp, ⟨?_, ?_, fun _ => ?_⟩, hsame, hw.freeMap, fun x hx => ?_⟩
      · rw [hsame.freeMapFile]
        exact h.notHeld
      · rw [hsame.freeMapFile, hsame.inodes]
        exact h.inode
      · rw [hw.freeMap]
        exact hw.fileAt (hfile.congr fun _ _ => rfl)
      · refine hw.outside x fun b hb he => hx ⟨.data b, .inr ⟨b, hb, rfl⟩, he⟩

/-- **The memory `bitmap_write` takes** is one request, and it fails if that is refused. -/
theorem bitmapWrite_memory {fm : Tree} {held : Option InodePtr} {σ : FsState}
    (h : FreeMapFile fm held σ) (hopen : σ.freeMapFile ≠ none) (hpos : 0 < σ.freeMap.bitCnt) :
    Returns (bitmapWrite held) σ fun written σ' =>
      written = σ.memory 0 ∧ σ'.memory = σ.shift.memory := by
  obtain ⟨q, hq⟩ := Option.ne_none_iff_exists'.1 hopen
  obtain ⟨inode, hp, hsector, hdeny⟩ := h.inode q hq
  unfold bitmapWrite
  rw [returns_get_bind, hq]
  dsimp only
  rw [if_neg (h.notHeld q hq)]
  refine (inodeWriteAtWith_whole (h.file hopen) hp hsector hdeny (Bitmap.length_bytes _)).seq
    fun n σ₁ h₁ => ?_
  rw [returns_pure]
  have hcnt : σ.freeMap.byteCnt ≠ 0 := by
    unfold Bitmap.byteCnt
    omega
  obtain ⟨rfl, hmem, rfl⟩ | ⟨rfl, hmem, hw⟩ := h₁
  · rw [hmem]
    exact ⟨beq_eq_false_iff_ne.2 hcnt.symm, rfl⟩
  · rw [hmem, hw.state]
    exact ⟨beq_iff_eq.2 (Bitmap.length_bytes _), rfl⟩

/-- **`free_map_release`** of one sector that is in use. -/
theorem FreeMapFile.release {fm : Tree} {σ : FsState} (h : FreeMapFile fm none σ)
    (hfile : σ.freeMapFile ≠ none) {sector : BlockSector} (hrange : sector.toNat < σ.freeMap.bitCnt)
    (htaken : σ.freeMap.bits sector.toNat = true) : Returns (freeMapRelease sector 1) σ fun _ σ' =>
      σ'.freeMap = σ.freeMap.setMultiple sector.toNat 1 false := by
  set σ₁ : FsState := { σ with freeMap := σ.freeMap.setMultiple sector.toNat 1 false }
  have hinv : FreeMapFile fm none σ₁ := ⟨h.notHeld, h.inode, fun hq => (h.file hq).congr fun _ _ => rfl⟩
  have hall : σ.freeMap.InRange sector.toNat 1 ∧ σ.freeMap.all sector.toNat 1 = true :=
    ⟨hrange, (Bitmap.all_one _ _).trans htaken⟩
  unfold freeMapRelease freeMapReleaseWith
  rw [returns_get_bind, if_pos hall, returns_set_bind]
  refine ((bitmapWrites fm none).write hinv hfile).seq fun written σ₂ h₂ => returns_pure.2 ?_
  exact h₂.2.2.2.1

/-- A file with one data block. -/
def Tree.short (d : Sector) (sector data : BlockSector) : Tree where
  table _ := d
  sector s := if s = .root then sector else data
  blocks := 1
  tables := Filesys.tables 1

theorem Tree.root_of_short {d : Sector} {sector data : BlockSector} {s : Slot}
    (h : s ∈ (Tree.short d sector data).tables) : s = .root := by
  have hopen : s.Open 1 := mem_tables.1 h
  cases s <;> simp_all [Slot.Open]

theorem Tree.mem_live_short {d : Sector} {sector data : BlockSector} {s : Slot} :
    s ∈ (Tree.short d sector data).live ↔ s = .root ∨ s = .data 0 := by
  constructor
  · rintro (hs | ⟨b, hb, rfl⟩)
    · exact .inl (Tree.root_of_short hs)
    · exact .inr (congrArg _ (Nat.lt_one_iff.1 hb))
  · rintro (rfl | rfl)
    · exact .inl (mem_tables.2 trivial)
    · exact .inr ⟨0, Nat.one_pos, rfl⟩

/-- A block of a file, and its inode in front of it. -/
theorem Placed.short {σ : FsState} {len : ℕ} {sector data : BlockSector} (hne : data ≠ sector)
    (hstore : σ.store sector = (newInodeDisk len false).setWord 0 data) :
    Placed ∅ σ (.short (σ.store sector) sector data) where
  linked := by
    refine ⟨fun p i c hp hc hc' => ?_, fun p i c hp hc hc' => ?_⟩
    · have hparent := Slot.parent_eq_of_child hc
      rcases Tree.mem_live_short.1 hc' with rfl | rfl
      · cases hparent
      · obtain ⟨-, hi⟩ := Prod.mk.inj (Option.some.inj hparent)
        obtain rfl : i = 0 := Fin.ext hi.symm
        show (σ.store sector).word 0 = data
        rw [hstore, Sector.word_setWord_self]
    · rcases Tree.mem_live_short.1 hp with rfl | rfl
      · have hi : i ≠ 0 := fun h0 => hc' (Tree.mem_live_short.2 (.inr (by subst h0; cases hc; rfl)))
        have hlt : i.val < 14 := by
          simp only [Slot.child] at hc
          split_ifs at hc <;> omega
        show (σ.store sector).word i = 0
        rw [hstore, Sector.word_setWord_of_ne _ hi.symm, word_newInodeDisk _ _ hlt]
      · cases hc
  noData b hb := by cases Tree.root_of_short hb
  root := mem_tables.2 trivial
  distinct s hs s' hs' heq := by
    rcases Tree.mem_live_short.1 hs with rfl | rfl <;>
      rcases Tree.mem_live_short.1 hs' with rfl | rfl
    · rfl
    · exact absurd heq.symm hne
    · exact absurd heq hne
    · rfl
  stored s hs _ := by
    rw [Tree.root_of_short hs]
    rfl

/-- **A free map's file of one block**, as it lies on the device. -/
theorem FreeMapFile.short {σ : FsState} {q : InodePtr} {held : Option InodePtr} {inode : Inode}
    {data : BlockSector} (hfile : σ.freeMapFile = some q) (hheld : held ≠ some q)
    (hq : σ.inodes q = some inode) (hinode : inode.sector = freeMapSector ∧ inode.denyWriteCnt = 0)
    (hstore : σ.store freeMapSector = (newInodeDisk σ.freeMap.byteCnt false).setWord 0 data)
    (hdata : data ≠ freeMapSector) (hpos : 0 < σ.freeMap.byteCnt) (hle : σ.freeMap.byteCnt ≤ 512) :
    FreeMapFile (.short (σ.store freeMapSector) freeMapSector data) held σ where
  notHeld p hp := by
    cases hfile.symm.trans hp
    exact hheld
  inode p hp := by
    cases hfile.symm.trans hp
    exact ⟨inode, hq, hinode⟩
  file _ := by
    refine ⟨⟨.short hdata hstore, rfl, ?_, Nat.one_le_of_lt (show 1 < capacity by decide)⟩, ?_⟩
    · show (σ.store freeMapSector).length = _
      have hword : (0 : Fin 128) ≠ 14 := by decide
      rw [hstore, Sector.length, Sector.word_setWord_of_ne _ hword]
      exact length_newInodeDisk false (by omega)
    · show 1 = (σ.freeMap.byteCnt + 511) / 512
      omega

/-! ### `inode_create` -/

/-- A tree without nodes. -/
def Tree.blank (d : Sector) : Tree :=
  { table := fun _ => d, sector := fun _ => 0, blocks := 0, tables := ∅ }

theorem Tree.live_blank (d : Sector) : (Tree.blank d).live = ∅ := by
  ext s
  refine ⟨?_, fun h => h.elim⟩
  rintro (hs | ⟨b, hb, -⟩)
  · exact absurd hs (Finset.notMem_empty s)
  · exact absurd hb (Nat.not_lt_zero b)

theorem Tree.sectors_blank (d : Sector) : (Tree.blank d).sectors = ∅ := by
  ext x
  refine ⟨?_, fun h => h.elim⟩
  rintro ⟨s, hs, -⟩
  rw [Tree.live_blank] at hs
  exact hs

/-- A file without data blocks. -/
def Tree.new (sector : BlockSector) (d : Sector) : Tree :=
  { table := fun _ => d, sector := fun _ => sector, blocks := 0, tables := Filesys.tables 0 }

/-- Only the inode of such a file is in use. -/
theorem Tree.mem_live_new {sector : BlockSector} {d : Sector} {s : Slot} :
    s ∈ (Tree.new sector d).live ↔ s = .root := by
  constructor
  · rintro (hs | ⟨b, hb, rfl⟩)
    · have hopen : s.Open 0 := mem_tables.1 hs
      cases s <;> simp_all [Slot.Open]
    · exact absurd hb (Nat.not_lt_zero b)
  · rintro rfl
    exact .inl (mem_tables.2 trivial)

section Create

variable {bitmapWrite : Kernel Bool} {own : Set BlockSector} {inv : FsState → Prop} {σ : FsState}

/-- The start of `inode_create`. -/
theorem Growing.new (hinv : inv σ) (hr : Reserved own σ) {sector : BlockSector}
    (htaken : σ.freeMap.bits sector.toNat = true) (hown : sector ∉ own) {d : Sector}
    (hd : ∀ i : Fin 128, i.val < 14 → d.word i = 0) :
    Growing own inv σ (Tree.new sector d) {.root} σ (Tree.new sector d) := by
  refine .refl ⟨⟨fun p i c hp hc hc' => ?_, fun p i c hp hc _ => ?_⟩, fun b hb => ?_,
    mem_tables.2 trivial, fun s hs s' hs' _ => ?_, fun s hs hn => ?_⟩ ⟨fun s hs hs' => ?_,
    fun _ _ => htaken, fun _ _ => hown⟩ hinv hr
  · rw [Tree.mem_live_new] at hp hc'
    subst hp hc'
    cases Slot.parent_eq_of_child hc
  · rw [Tree.mem_live_new] at hp
    subst hp
    exact hd i (root_child_lt hc)
  · exact (mem_tables.1 hb).elim
  · rw [Tree.mem_live_new] at hs hs'
    rw [hs, hs']
  · exact absurd (Tree.mem_live_new.1 (.inl hs)) hn
  · exact absurd (Tree.mem_live_new.1 hs) hs'

/-- Memory taken first does not matter. -/
theorem Growing.rebase {t₀ t : Tree} {buf : Set Slot} {σ' : FsState}
    (h : Growing own inv σ.shift t₀ buf σ' t) : Growing own inv σ t₀ buf σ' t :=
  { h with
    toGrown := h.toGrown.congr rfl rfl ((same_shift σ).trans h.same)
    reserved := ⟨h.reserved.zero, h.reserved.own⟩ }

/-- **`inode_create`** makes an inode with blocks for its length, as far as the
index tree has entries, or sectors or memory do not suffice and it returns
failure. -/
theorem createInodeWith_returns (hbw : BitmapWrites bitmapWrite own inv) (hinv : inv σ)
    (hr : Reserved own σ) {sector : BlockSector} (htaken : σ.freeMap.bits sector.toNat = true)
    (hown : sector ∉ own) (kind : Bool) {length : ℕ} (hlength : length < 2 ^ 31) :
    Returns (createInodeWith bitmapWrite kind sector length) σ fun ok σ' =>
      (ok = true ∧ ∃ t', Altered own inv σ (.new sector (newInodeDisk length kind)) length [] σ' t' ∧
        Laid σ' t' length ∧ t'.blocks = min (bytesToSectors length) capacity) ∨
      (ok = false ∧ ¬Enough σ 0 (bytesToSectors length) ∧ ∃ t' buf', Growing own inv σ
        (.new sector (newInodeDisk length kind)) buf' σ' t') := by
  have hgrow : Growing own inv σ.shift (.new sector (newInodeDisk length kind)) {.root} σ.shift
      (.new sector (newInodeDisk length kind)) :=
    .new (hbw.stable hinv (same_shift σ) fun _ _ => rfl) ⟨hr.zero, hr.own⟩ htaken hown
      fun i hi => word_newInodeDisk _ _ hi
  unfold createInodeWith
  rw [if_neg (Int.not_lt.2 (Int.natCast_nonneg length)), returns_bind_of_run (run_alloc σ)]
  cases hmem : σ.memory 0 with
  | false =>
    rw [if_pos rfl, returns_pure]
    refine .inr ⟨rfl, fun he => ?_, _, _, hgrow.rebase⟩
    rw [he.1 0] at hmem
    cases hmem
  | true =>
    rw [if_neg (by simp)]
    refine (allocateBlocksWith_returns hbw hgrow rfl (Nat.zero_le _) (bytesToSectors length)).seq
      fun r σ₁ h₁ => ?_
    obtain ⟨t₁, buf₁, hs⟩ := h₁
    obtain ⟨ok, d⟩ := r
    have hgoal : (Tree.new sector (newInodeDisk length kind)).blocks + bytesToSectors length =
        bytesToSectors length := Nat.zero_add _
    rw [hgoal] at hs
    dsimp only at hs ⊢
    cases ok with
    | false =>
      rw [if_pos rfl, returns_pure]
      refine .inr ⟨rfl, fun he => ?_, t₁, buf₁, hs.growing.rebase⟩
      have hok := hs.ok_of_enough ((same_shift σ).memory he.1) he.2
      cases hok
    | true =>
      obtain ⟨rfl, htables, hge, hle⟩ := hs.done rfl
      have hzero : (Tree.new sector (newInodeDisk length kind)).blocks = 0 := rfl
      have hroot : t₁.sector .root = sector := hs.growing.keep .root (.inl (mem_tables.2 trivial))
      -- the length the inode was filled in with
      have hlen : (t₁.table .root).setLength length = t₁.table .root := by
        have htail : (t₁.table .root).length = (newInodeDisk length kind).length :=
          Sector.length_congr fun j hj => hs.growing.tail j hj
        rw [length_newInodeDisk kind hlength] at htail
        rw [← htail, Sector.setLength_length]
      have hstore := hs.growing.rebase.store hbw.stable length
      have hlaid := hs.growing.placed.laid htables hlength (by omega)
      rw [hlen, hroot] at hstore hlaid
      rw [if_neg (by simp), hs.root]
      unfold writeSector
      rw [returns_modify_bind, returns_pure]
      refine .inl ⟨rfl, _, hstore, hlaid, ?_⟩
      show t₁.blocks = _
      omega

/-- An inode for a length within the capacity of the index tree is a file. -/
theorem Altered.wrote {t t' : Tree} {σ' : FsState} {length : ℕ}
    (h : Altered own inv σ t length [] σ' t') (hlaid : Laid σ' t' length)
    (hblocks : t'.blocks = min (bytesToSectors length) capacity) (hlength : length ≤ 512 * capacity) :
    Wrote own inv σ t 0 length [] σ' t' := by
  have hcapacity : capacity = 16524 := rfl
  have hlen : max 0 (length + ([] : List UInt8).length) = length := by simp
  rw [bytesToSectors_of_lt (by omega)] at hblocks
  refine ⟨h, ?_⟩
  rw [hlen]
  exact ⟨hlaid, by omega⟩

end Create

end Filesys
end CS162

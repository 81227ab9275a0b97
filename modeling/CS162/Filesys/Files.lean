/-
# Files side by side

`projects1-3/src/filesys/inode.c` and `projects1-3/src/filesys/filesys.c`, lines
85-102: the inodes of a device and calls on them.

`Files` is the invariant of a device with a number of files on it: each lies on
the sectors as its own tree, the trees have no sector in common, and all their
sectors are allocated.  A call that writes to one file or makes a new one keeps it
(`Files.wrote`), since it takes free sectors only, and changes no byte of any
other file (`Files.bytes_of_ne`).
-/

import CS162.Filesys.Format

namespace CS162
namespace Filesys

open CS162.Basis

/-- The files on a device by the sectors of their inodes: trees and lengths. -/
abbrev FileTable := BlockSector → Option (Tree × ℕ)

/-- The files in the table lie side by side on the device. -/
structure Files (fm : Tree) (files : FileTable) (σ : FsState) : Prop where
  freeMap : FreeMapFile fm none σ
  reserved : Reserved fm.sectors σ
  root : ∀ {x f}, files x = some f → f.1.sector .root = x
  fileAt : ∀ {x f}, files x = some f → FileAt σ f.1 f.2
  claimed : ∀ {x f}, files x = some f → Claimed fm.sectors σ f.1
  disjoint : ∀ {x x' f f'}, files x = some f → files x' = some f' → x ≠ x' →
    ∀ s ∈ f.1.live, ∀ s' ∈ f'.1.live, f.1.sector s ≠ f'.1.sector s'
  taken : ∀ p ∈ σ.openInodes, ∀ inode, σ.inodes p = some inode →
    σ.freeMap.bits inode.sector.toNat = true
  next : ∀ p, σ.nextPtr ≤ p → σ.inodes p = none

section Wrote

variable {fm : Tree} {files : FileTable} {σ σ' : FsState} {held : Option InodePtr} {t t' : Tree}
  {len offset : ℕ} {buffer : List UInt8} {x : BlockSector}

/-- A tree that has grown beside another one has no sector of it. -/
theorem Grown.beside (h : Grown σ t σ' t') {t₁ : Tree} {own : Set BlockSector}
    (hc : Claimed own σ t₁) (hbeside : ∀ s ∈ t.live, ∀ s' ∈ t₁.live, t.sector s ≠ t₁.sector s') :
    ∀ s ∈ t'.live, ∀ s' ∈ t₁.live, t'.sector s ≠ t₁.sector s' := by
  intro s hs s' hs' he
  by_cases hold : s ∈ t.live
  · rw [h.keep s hold] at he
    exact hbeside s hold s' hs' he
  · have hfree := (Bitmap.mem_free.1 (h.fresh s hs hold)).2
    rw [he, hc.taken s' hs'] at hfree
    cases hfree

/-- The sectors of another file hold what they held. -/
theorem Wrote.store_beside {own : Set BlockSector} {inv : FsState → Prop}
    (h : Wrote own inv σ t len offset buffer σ' t') {t₁ : Tree} (hc : Claimed own σ t₁)
    (hbeside : ∀ s ∈ t.live, ∀ s' ∈ t₁.live, t.sector s ≠ t₁.sector s') {s : Slot}
    (hs : s ∈ t₁.live) : σ'.store (t₁.sector s) = σ.store (t₁.sector s) :=
  h.outside _ (hc.notOwn s hs) fun s' hs' => h.toGrown.beside hc hbeside s' hs' s hs

/-- The bytes of another file are what they were. -/
theorem Wrote.bytes_beside {own : Set BlockSector} {inv : FsState → Prop}
    (h : Wrote own inv σ t len offset buffer σ' t') {t₁ : Tree} (hc : Claimed own σ t₁)
    (hbeside : ∀ s ∈ t.live, ∀ s' ∈ t₁.live, t.sector s ≠ t₁.sector s') {j : ℕ}
    (hj : j < 512 * t₁.blocks) : t₁.bytes σ' j = t₁.bytes σ j :=
  entry_congr (h.store_beside hc hbeside (.inr ⟨j / 512, by omega, rfl⟩))

/-- **Writing keeps the files side by side**, and so does making one, `x` being its
inode's sector. -/
theorem Files.wrote (h : Files fm files σ)
    (hw : Wrote fm.sectors (FreeMapFile fm held) σ t len offset buffer σ' t')
    (hroot : t'.sector .root = x)
    (hbeside : ∀ {x' f}, files x' = some f → x' ≠ x →
      ∀ s ∈ t.live, ∀ s' ∈ f.1.live, t.sector s ≠ f.1.sector s') :
    Files fm (Function.update files x (some (t', max len (offset + buffer.length)))) σ' := by
  have hbits : ∀ n, σ.freeMap.bits n = true → σ'.freeMap.bits n = true :=
    fun n hn => (hw.bits n).2 (.inl hn)
  -- an entry of the new table is the new file or an old one
  have hcases : ∀ {x' f}, Function.update files x (some (t', max len (offset + buffer.length))) x' =
      some f → x' = x ∧ f = (t', max len (offset + buffer.length)) ∨ x' ≠ x ∧ files x' = some f := by
    intro x' f hf
    by_cases hx : x' = x
    · subst hx
      rw [Function.update_self] at hf
      exact .inl ⟨rfl, (Option.some.inj hf).symm⟩
    · rw [Function.update_of_ne hx] at hf
      exact .inr ⟨hx, hf⟩
  have hnew : ∀ {x' f}, files x' = some f → x' ≠ x →
      ∀ s ∈ t'.live, ∀ s' ∈ f.1.live, t'.sector s ≠ f.1.sector s' :=
    fun hf hx => hw.toGrown.beside (h.claimed hf) (hbeside hf hx)
  refine ⟨⟨by simp, hw.inv.inode, hw.inv.file⟩, ⟨hbits _ h.reserved.zero, fun y hy => hbits _
    (h.reserved.own y hy)⟩, fun hf => ?_, fun hf => ?_, fun hf => ?_, fun hf hf' hne => ?_,
    fun p hp inode hinode => ?_, fun p hp => ?_⟩
  · rcases hcases hf with ⟨rfl, rfl⟩ | ⟨-, hf⟩
    · exact hroot
    · exact h.root hf
  · rcases hcases hf with ⟨rfl, rfl⟩ | ⟨hx, hf⟩
    · exact hw.file
    · exact (h.fileAt hf).congr fun s hs => hw.store_beside (h.claimed hf) (hbeside hf hx) (.inl hs)
  · rcases hcases hf with ⟨rfl, rfl⟩ | ⟨-, hf⟩
    · exact hw.claimed
    · have hc := h.claimed hf
      exact ⟨hc.nonzero, fun s hs => hbits _ (hc.taken s hs), hc.notOwn⟩
  · rcases hcases hf with ⟨rfl, rfl⟩ | ⟨hx, hold⟩ <;>
      rcases hcases hf' with ⟨rfl, rfl⟩ | ⟨hx', hold'⟩
    · exact absurd rfl hne
    · exact hnew hold' hx'
    · exact fun s hs s' hs' he => hnew hold hx s' hs' s hs he.symm
    · exact h.disjoint hold hold' hne
  · rw [hw.same.openInodes] at hp
    rw [hw.same.inodes] at hinode
    exact hbits _ (h.taken p hp inode hinode)
  · rw [hw.same.nextPtr] at hp
    rw [hw.same.inodes]
    exact h.next p hp

end Wrote

/-- A device that was formatted has no files yet. -/
theorem Formatted.files {fm : Tree} {size : BlockSector} {store : BlockSector → Sector} {q : InodePtr}
    {σ : FsState} (h : Formatted fm q (fresh size store) σ) : Files fm (fun _ => none) σ := by
  have hnone : ∀ {f : Tree × ℕ}, none ≠ some f := (Option.some_ne_none _).symm
  refine ⟨h.file, h.reserved, fun hf => absurd hf hnone, fun hf => absurd hf hnone,
    fun hf => absurd hf hnone, fun hf => absurd hf hnone, fun p hp inode hinode => ?_, fun p hp => ?_⟩
  · rw [h.openInodes, List.mem_singleton] at hp
    subst hp
    rw [h.inodes, Function.update_self] at hinode
    obtain rfl := Option.some.inj hinode
    exact h.reserved.zero
  · rw [h.nextPtr] at hp
    have hne : p ≠ q := Nat.ne_of_gt hp
    rw [h.inodes, Function.update_of_ne hne]
    rfl

/-! ### `inode_read_at` and `inode_write_at` -/

section Calls

variable {fm : Tree} {files : FileTable} {σ : FsState} {p : InodePtr} {inode : Inode} {f : Tree × ℕ}

/-- A file's inode is not the free map's. -/
theorem Files.hold (h : Files fm files σ) (hp : σ.inodes p = some inode)
    (hf : files inode.sector = some f) : FreeMapFile fm (some p) σ := by
  refine ⟨fun q hq he => ?_, h.freeMap.inode, h.freeMap.file⟩
  obtain rfl := Option.some.inj he
  obtain ⟨inode', hp', hsector, -⟩ := h.freeMap.inode p hq
  obtain rfl := Option.some.inj (hp.symm.trans hp')
  have hfile := h.freeMap.file (by simp [hq])
  have hnot := (h.claimed hf).notOwn .root (.inl (h.fileAt hf).placed.root)
  rw [h.root hf, hsector] at hnot
  exact hnot ⟨.root, .inl hfile.placed.root, rfl⟩

/-- **`inode_read_at`** on a file reads its bytes and changes nothing. -/
theorem Files.inodeReadAt_returns (h : Files fm files σ) (hp : σ.inodes p = some inode)
    (hf : files inode.sector = some f) (size offset : ℕ) :
    Returns (inodeReadAt p size offset) σ fun bytes σ' =>
      σ' = σ ∧ bytes = run (f.1.bytes σ) offset (min size (f.2 - offset)) := by
  unfold inodeReadAt
  rw [returns_bind_of_run (run_getInode hp), ← h.root hf]
  exact readLoop_returns (h.fileAt hf) size offset

/-- **`inode_write_at`** on a file. -/
theorem Files.inodeWriteAt_cases (h : Files fm files σ) (hp : σ.inodes p = some inode)
    (hf : files inode.sector = some f) (hdeny : inode.denyWriteCnt = 0) {buffer : List UInt8}
    {offset : ℕ} (hend : offset + buffer.length ≤ 512 * capacity) :
    Returns (inodeWriteAt p buffer offset) σ (fun n σ' => n = buffer.length ∧
        ∃ t', Wrote fm.sectors (FreeMapFile fm (some p)) σ f.1 f.2 offset buffer σ' t') ∨
      ¬Enough σ f.1.blocks ((offset + buffer.length + 511) / 512) ∧
        Ensures (inodeWriteAt p buffer offset) σ fun n _ => n = 0 :=
  inodeWriteAtWith_cases (bitmapWrites fm (some p)) (h.fileAt hf) (h.claimed hf) h.reserved
    (h.hold hp hf) hp (h.root hf).symm hdeny hend

/-- The files after a write. -/
theorem Files.wroteAt (h : Files fm files σ) {x : BlockSector} (hf : files x = some f)
    {held : Option InodePtr} {offset : ℕ} {buffer : List UInt8} {σ' : FsState} {t' : Tree}
    (hw : Wrote fm.sectors (FreeMapFile fm held) σ f.1 f.2 offset buffer σ' t') :
    Files fm (Function.update files x (some (t', max f.2 (offset + buffer.length)))) σ' := by
  refine h.wrote hw ((hw.keep .root (.inl (h.fileAt hf).placed.root)).trans (h.root hf)) ?_
  exact fun hf' hne => h.disjoint hf hf' hne.symm

end Calls

/-! ### Making a file -/

/-- A new file, open, as `filesys_create` and `filesys_open` make it: a sector for
the inode, `inode_create`, `inode_open`. -/
def makeFile (length : Off) : Kernel (Option InodePtr) := do
  let sector ← freeMapAllocate 1
  match sector with
  | none => return none
  | some sector =>
    let created ← inodeCreate sector length
    if created = false then return none else inodeOpen sector

/-- Memory, and free sectors for a file of `goal` blocks and its inode. -/
def EnoughNew (σ : FsState) (goal : ℕ) : Prop :=
  σ.Memory ∧ slots goal ≤ σ.freeMap.free.card

/-- A file of `length` bytes was made on `σ`, which led to `σ₁`, and opened: its
tree grew from nothing. -/
structure Made (fm : Tree) (σ : FsState) (length : ℕ) (σ₁ σ' : FsState) (t' : Tree) : Prop where
  altered : Altered fm.sectors (FreeMapFile fm none) σ (.blank (newInodeDisk length false)) length []
    σ₁ t'
  laid : Laid σ₁ t' length
  blocks : t'.blocks = min (bytesToSectors length) capacity
  opened : σ' = σ₁.opened (t'.sector .root)

section Make

variable {fm : Tree} {files : FileTable} {σ σ' σ₁ : FsState}

/-- The sector of the inode is the first node of the tree. -/
theorem Took.grown {own : Set BlockSector} {v : BlockSector} (h : Took own σ σ' v) (d : Sector) :
    Grown σ (.blank d) σ' (.new v d) := by
  have hnone : ∀ {s}, s ∉ (Tree.blank d).live := by
    intro s hs
    rw [Tree.live_blank] at hs
    exact hs
  have hused : (Tree.new v d).used = 1 := slots_zero
  have hscan : σ.freeMap.nth 0 = some v.toNat := h.scan
  refine ⟨h.same, le_rfl, Finset.empty_subset _, fun s hs => absurd hs hnone, fun _ _ _ => h.free,
    fun n => ?_, ?_, ?_, fun b _ hb => absurd hb (Nat.not_lt_zero b)⟩
  · rw [h.freeMap, Bitmap.bits_setMultiple_one]
    split_ifs with hn
    · exact ⟨fun _ => .inr ⟨.root, Tree.mem_live_new.2 rfl, hnone, hn.symm⟩, fun _ => rfl⟩
    · refine ⟨.inl, fun hbit => hbit.resolve_right ?_⟩
      rintro ⟨s, -, -, rfl⟩
      exact hn rfl
  · rw [h.freeMap, Bitmap.free_setMultiple_one, hused]
    exact Finset.card_erase_add_one h.free
  · rw [hused, h.freeMap]
    exact (Bitmap.taken_succ hscan).symm

/-- A sector for the inode and then the file: both together. -/
theorem Took.altered {own : Set BlockSector} {inv : FsState → Prop} {v : BlockSector} {d : Sector}
    {length : ℕ} {t' : Tree} (h : Took own σ σ₁ v)
    (hw : Altered own inv σ₁ (.new v d) length [] σ' t') :
    Altered own inv σ (.blank d) length [] σ' t' where
  toGrown := (h.grown d).trans rfl hw.toGrown
  claimed := hw.claimed
  inv := hw.inv
  bytes j hj := by
    rw [hw.bytes j hj]
    exact overwrite_congr (entry_congr (h.store _ (hw.claimed.notOwn _ (.inr ⟨j / 512, by omega, rfl⟩))))
  outside x hx hno := (hw.outside x hx hno).trans (h.store x hx)
  tail := hw.tail

/-- Opening an inode leaves the files. -/
theorem Files.opened (h : Files fm files σ) {x : BlockSector}
    (hx : σ.freeMap.bits x.toNat = true) : Files fm files (σ.opened x) := by
  have hold : ∀ {p inode}, σ.inodes p = some inode → p ≠ σ.nextPtr := by
    rintro p inode hp rfl
    rw [h.next _ le_rfl] at hp
    cases hp
  have hinodes : (σ.opened x).inodes =
      Function.update σ.inodes σ.nextPtr (some ⟨x, 1, false, 0⟩) := rfl
  refine ⟨⟨by simp, fun q hq => ?_, fun hq => (h.freeMap.file hq).congr fun _ _ => rfl⟩, ⟨h.reserved.zero, h.reserved.own⟩, h.root,
    fun hf => (h.fileAt hf).congr fun _ _ => rfl,
    fun hf => ⟨(h.claimed hf).nonzero, (h.claimed hf).taken, (h.claimed hf).notOwn⟩, h.disjoint,
    fun p hp inode hinode => ?_, fun p hp => ?_⟩
  · obtain ⟨inode, hinode, hrest⟩ := h.freeMap.inode q hq
    exact ⟨inode, (Function.update_of_ne (hold hinode) _ _).trans hinode, hrest⟩
  · by_cases hnew : p = σ.nextPtr
    · subst hnew
      rw [hinodes, Function.update_self] at hinode
      obtain rfl := Option.some.inj hinode
      exact hx
    · rw [hinodes, Function.update_of_ne hnew] at hinode
      exact h.taken p ((List.mem_cons.1 hp).resolve_left hnew) inode hinode
  · have hlt : σ.nextPtr < p := hp
    exact (Function.update_of_ne (Nat.ne_of_gt hlt) _ _).trans (h.next p hlt.le)

/-- The sector of a new file's inode was free. -/
theorem Made.free {length : ℕ} {t' : Tree} (h : Made fm σ length σ₁ σ' t') {s : Slot}
    (hs : s ∈ t'.live) : (t'.sector s).toNat ∈ σ.freeMap.free := by
  refine h.altered.fresh s hs ?_
  rw [Tree.live_blank]
  exact Set.notMem_empty s

theorem Made.root_live {length : ℕ} {t' : Tree} (h : Made fm σ length σ₁ σ' t') :
    Slot.root ∈ t'.live := .inl h.laid.placed.root

theorem Made.wrote {length : ℕ} {t' : Tree} (h : Made fm σ length σ₁ σ' t')
    (hlength : length ≤ 512 * capacity) : Wrote fm.sectors (FreeMapFile fm none) σ
      (.blank (newInodeDisk length false)) 0 length [] σ₁ t' :=
  h.altered.wrote h.laid h.blocks hlength

/-- **The files after one was made.** -/
theorem Made.sideBySide {length : ℕ} {t' : Tree} (h : Made fm σ length σ₁ σ' t')
    (hf : Files fm files σ) (hlength : length ≤ 512 * capacity) :
    Files fm (Function.update files (t'.sector .root) (some (t', length))) σ' := by
  have hwrote := hf.wrote (h.wrote hlength) (x := t'.sector .root) rfl fun _ _ s hs => by
    rw [Tree.live_blank] at hs
    exact hs.elim
  have hlen : max 0 (length + ([] : List UInt8).length) = length := by simp
  rw [hlen] at hwrote
  rw [h.opened]
  exact hwrote.opened (h.altered.claimed.taken _ h.root_live)

/-- A file that is there is not in the new file's sector. -/
theorem Made.new {length : ℕ} {t' : Tree} (h : Made fm σ length σ₁ σ' t') (hf : Files fm files σ) :
    files (t'.sector .root) = none := by
  cases hx : files (t'.sector .root) with
  | none => rfl
  | some f =>
    have hroot := (hf.claimed hx).taken .root (.inl (hf.fileAt hx).placed.root)
    have hfree := (Bitmap.mem_free.1 (h.free h.root_live)).2
    rw [hf.root hx, hfree] at hroot
    cases hroot

/-- **Making a file** succeeds with memory and sectors. -/
theorem Files.makeFile_returns (h : Files fm files σ) {length : ℕ} (hlength : length < 2 ^ 31) :
    Returns (makeFile length) σ fun p σ' =>
      (p = some σ.nextPtr ∧ ∃ σ₁ t', Made fm σ length σ₁ σ' t') ∨
        (p = none ∧ ¬EnoughNew σ (bytesToSectors length)) := by
  have hbw := bitmapWrites fm none
  unfold makeFile freeMapAllocate inodeCreate
  refine (freeMapAllocateWith_returns hbw h.freeMap).seq fun sector σ₁ h₁ => ?_
  obtain ⟨hinv₁, ⟨rfl, hmiss⟩ | ⟨v, rfl, htook⟩⟩ := h₁
  · dsimp only
    rw [returns_pure]
    refine .inr ⟨rfl, fun he => ?_⟩
    have hcard := he.2
    rw [hmiss.full he.1, Finset.card_empty] at hcard
    have hpos : 0 < (tables (bytesToSectors length)).card :=
      Finset.card_pos.2 ⟨.root, mem_tables.2 trivial⟩
    unfold slots at hcard
    omega
  · have hgrown := htook.grown (newInodeDisk length false)
    have hbits₁ : ∀ n, σ.freeMap.bits n = true → σ₁.freeMap.bits n = true :=
      fun n hn => (hgrown.bits n).2 (.inl hn)
    have htaken : σ₁.freeMap.bits v.toNat = true := by
      rw [htook.freeMap, Bitmap.bits_setMultiple_one, if_pos rfl]
    have hown : v ∉ fm.sectors := by
      intro hmem
      have hfree := (Bitmap.mem_free.1 htook.free).2
      rw [h.reserved.own v hmem] at hfree
      cases hfree
    have hr₁ : Reserved fm.sectors σ₁ :=
      ⟨hbits₁ _ h.reserved.zero, fun x hx => hbits₁ _ (h.reserved.own x hx)⟩
    dsimp only
    refine (createInodeWith_returns hbw hinv₁ hr₁ htaken hown false hlength).seq fun ok σ₂ h₂ => ?_
    obtain ⟨rfl, t', hw, hlaid, hblocks⟩ | ⟨rfl, hno, -⟩ := h₂
    · -- the inode was not open, as its sector was free
      have hwrote := htook.altered hw
      have hroot : t'.sector .root = v := hw.keep .root (Tree.mem_live_new.2 rfl)
      rw [if_neg (by simp)]
      have hclosed : ∀ p ∈ σ₂.openInodes, ∀ inode, σ₂.inodes p = some inode → inode.sector ≠ v := by
        rintro p hp inode hinode rfl
        rw [hwrote.same.openInodes] at hp
        rw [hwrote.same.inodes] at hinode
        have hfree := (Bitmap.mem_free.1 htook.free).2
        rw [h.taken p hp inode hinode] at hfree
        cases hfree
      have hopened := run_inodeOpen_new hclosed
      have hmem : σ.Memory → σ₂.memory 0 = true := fun hm => hwrote.same.memory hm 0
      cases hmem₂ : σ₂.memory 0 with
      | true =>
        rw [hmem₂, if_pos rfl, hwrote.same.nextPtr] at hopened
        exact ⟨_, _, hopened, .inl ⟨rfl, σ₂, t', hwrote, hlaid, hblocks, by rw [hroot]⟩⟩
      | false =>
        rw [hmem₂, if_neg (by simp)] at hopened
        refine ⟨_, _, hopened, .inr ⟨rfl, fun he => ?_⟩⟩
        rw [hmem he.1] at hmem₂
        cases hmem₂
    · rw [if_pos rfl, returns_pure]
      refine .inr ⟨rfl, fun he => hno ⟨htook.same.memory he.1, ?_⟩⟩
      have hcount := hgrown.count
      have hused : (Tree.new v (newInodeDisk length false)).used = slots 0 := rfl
      have hused₀ : (Tree.blank (newInodeDisk length false)).used = 0 := rfl
      have hcard := he.2
      rw [hused, hused₀] at hcount
      omega

end Make

end Filesys
end CS162

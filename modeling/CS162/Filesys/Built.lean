/-
# Files that growth has built

`projects1-3/src/filesys/inode.c`, lines 60-62, 309-451 and 705-740.

`inode_create` and growing calls of `inode_resize` leave a file that has the data
blocks of its length, as far as the index has entries, and the index blocks above
them, on sectors of its own (`Built`).  So the entries that are set are those up
to the number of its blocks (`Built.nodeSector_ne_zero`), and it is one of the
sound inodes (`Built.sound`).
-/

import CS162.Filesys.IndexSuccess

namespace CS162
namespace Filesys

open CS162.Basis

/-- A file of `len` bytes that growth has built: the blocks of its length, as far as the index
has entries, on allocated sectors of the device. -/
structure Built (fm : Tree) (σ : FsState) (t : Tree) (len : ℕ) : Prop extends Laid σ t len where
  upTo : t.blocks = min (bytesToSectors len) Filesys.capacity
  claimed : Claimed fm.sectors σ t
  inRange : ∀ s ∈ t.live, (t.sector s).toNat < σ.freeMap.bitCnt

/-! ### The tree as an index -/

instance instDecidableMemLive (t : Tree) (s : Slot) : Decidable (s ∈ t.live) :=
  inferInstanceAs (Decidable (s ∈ t.tables ∨ ∃ b < t.blocks, s = .data b))

/-- The nodes of a tree as an index. -/
def Tree.index (t : Tree) : Index where
  table := t.table
  sector s := if s ∈ t.live then t.sector s else 0

/-- A node's data blocks begin no earlier than those of the node above it. -/
theorem Slot.first_le {p c : Slot} {i : Fin 128} (h : p.child i = some c) : p.first ≤ c.first := by
  cases p with
  | root => exact Nat.zero_le _
  | indirect =>
    obtain rfl := Option.some.inj h
    exact Nat.le_add_right _ _
  | doubly =>
    obtain rfl := Option.some.inj h
    exact Nat.le_add_right _ _
  | table k =>
    obtain rfl := Option.some.inj h
    exact Nat.le_add_right _ _
  | data b => cases h

section Built

variable {fm : Tree} {held : Option InodePtr} {σ σ' : FsState} {t : Tree} {len : ℕ}

/-- The nodes of a file are those whose data blocks begin below its last block. -/
theorem Laid.mem_live (h : Laid σ t len) {s : Slot} (hs : s ≠ .root) :
    s ∈ t.live ↔ s.first < t.blocks := by
  cases s with
  | root => exact absurd rfl hs
  | data b => exact Tree.mem_live_data (h.placed.noData b)
  | indirect =>
    rw [Tree.mem_live_of_not_data (by simp), h.tables, mem_tables]
    rfl
  | doubly =>
    rw [Tree.mem_live_of_not_data (by simp), h.tables, mem_tables]
    rfl
  | table i =>
    rw [Tree.mem_live_of_not_data (by simp), h.tables, mem_tables]
    rfl

theorem Laid.root_mem (h : Laid σ t len) : .root ∈ t.live := .inl h.placed.root

/-- Above a node of the file there are nodes of the file. -/
theorem Laid.parent_mem (h : Laid σ t len) {p c : Slot} {i : Fin 128} (hc : p.child i = some c)
    (hlive : c ∈ t.live) : p ∈ t.live := by
  by_cases hroot : p = .root
  · exact hroot ▸ h.root_mem
  · rw [h.mem_live (Slot.child_ne_root hc)] at hlive
    exact (h.mem_live hroot).2 ((Slot.first_le hc).trans_lt hlive)

/-- What is in the index is in the file. -/
theorem Built.has_index (h : Built fm σ t len) {s : Slot} : t.index.Has s ↔ s ∈ t.live := by
  by_cases hroot : s = .root
  · exact iff_of_true (.inl hroot) (hroot ▸ h.root_mem)
  · rw [Index.has_of_ne hroot, Tree.index]
    dsimp only
    split_ifs with hlive
    · exact iff_of_true (h.claimed.nonzero s hlive hroot) hlive
    · exact iff_of_false (fun hne => hne rfl) hlive

theorem Tree.sector_index {s : Slot} (hs : s ∈ t.live) : t.index.sector s = t.sector s := if_pos hs

/-- **The file's index lies on the sectors.** -/
theorem Built.indexed (h : Built fm σ t len) : Indexed fm.sectors {.root} σ t.index := by
  have hdata : ∀ {s : Slot}, s.IsTable → s ∈ t.live → s ∈ t.tables := fun hs hlive =>
    (Tree.mem_live_of_not_data (Slot.isTable_iff.1 hs)).1 hlive
  constructor
  · intro p c i hc hp
    have hp' := hdata (Slot.isTable_of_child hc) (h.has_index.1 hp)
    show (t.table p).word i = if c ∈ t.live then t.sector c else 0
    split_ifs with hlive
    · exact h.placed.linked.word_eq hp' hc hlive
    · exact h.placed.linked.word_eq_zero hp' hc hlive
  · intro p c i hc hp
    exact if_neg fun hlive => hp (h.has_index.2 (h.parent_mem hc hlive))
  · intro b hb
    refine if_neg fun hlive => ?_
    rw [h.mem_live (by simp)] at hlive
    exact absurd hlive (not_lt.2 (h.capacity.trans hb))
  · intro s s' hs hs' he
    rw [h.has_index] at hs hs'
    rw [Tree.sector_index hs, Tree.sector_index hs'] at he
    exact h.placed.distinct s hs s' hs' he
  · intro s hst hs _
    rw [h.has_index] at hs
    rw [Tree.sector_index hs]
    exact h.placed.stored s (hdata hst hs) (by simp)
  · intro s hs
    rw [h.has_index] at hs
    rw [Tree.sector_index hs]
    exact h.claimed.taken s hs
  · intro s hs
    rw [h.has_index] at hs
    rw [Tree.sector_index hs]
    exact h.inRange s hs
  · intro s hs
    rw [h.has_index] at hs
    rw [Tree.sector_index hs]
    exact h.claimed.notOwn s hs

/-- **The entries of the file are its nodes.** -/
theorem Built.nodeSector_eq (h : Built fm σ t len) (s : Slot) :
    nodeSector σ.store (t.sector .root) (σ.store (t.sector .root)) s = t.index.sector s := by
  have hroot : t.index.sector .root = t.sector .root := Tree.sector_index h.root_mem
  have heq := h.indexed.nodeSector_eq (d := t.table .root) (fun _ _ => rfl) (fun _ _ _ => rfl) s
  rwa [hroot, ← h.store_root] at heq

theorem Built.nodeSector_ne_zero (h : Built fm σ t len) {s : Slot} (hs : s ≠ .root) :
    nodeSector σ.store (t.sector .root) (σ.store (t.sector .root)) s ≠ 0 ↔ s.first < t.blocks := by
  rw [h.nodeSector_eq, ← Index.has_of_ne hs, h.has_index, h.mem_live hs]

/-- The index read off the sectors has the nodes of the file. -/
theorem Built.has (h : Built fm σ t len) {s : Slot} :
    (indexOf σ.store (t.sector .root) (σ.store (t.sector .root))).Has s ↔ s ∈ t.live := by
  rw [← h.has_index]
  unfold Index.Has
  rw [indexOf_sector, h.nodeSector_eq]

/-- **Such an inode is sound.** -/
theorem Built.sound (h : Built fm σ t len) :
    Sound fm.sectors σ (t.sector .root) (σ.store (t.sector .root)) := by
  have hhas : ∀ {s}, (indexOf σ.store (t.sector .root) (σ.store (t.sector .root))).Has s →
      t.index.Has s := fun hs => h.has_index.2 (h.has.1 hs)
  refine indexed_indexOf (fun hs hs' he => ?_) (fun hs => ?_) (fun hs => ?_) fun hs => ?_
  · rw [h.nodeSector_eq, h.nodeSector_eq] at he
    exact h.indexed.distinct (hhas hs) (hhas hs') he
  · rw [h.nodeSector_eq]
    exact h.indexed.taken (hhas hs)
  · rw [h.nodeSector_eq]
    exact h.indexed.inRange (hhas hs)
  · rw [h.nodeSector_eq]
    exact h.indexed.notOwn (hhas hs)

/-! ### Growth builds -/

theorem bytesToSectors_mono {m n : ℕ} (h : m ≤ n) (hn : n < 2 ^ 31) :
    bytesToSectors m ≤ bytesToSectors n := by
  rcases Nat.lt_or_ge (n + 511) (2 ^ 31) with hlt | hge
  · rw [bytesToSectors_of_lt hlt, bytesToSectors_of_lt (by omega)]
    omega
  rw [bytesToSectors_of_neg (wrap32_add_of_ge hge hn) (by omega), if_neg (by omega)]
  rcases Nat.lt_or_ge (m + 511) (2 ^ 31) with hlt' | hge'
  · rw [bytesToSectors_of_lt hlt']
    omega
  · rw [bytesToSectors_of_neg (wrap32_add_of_ge hge' (by omega)) (by omega), if_neg (by omega)]
    omega

/-- A file that has grown is built, and the file system stays in use. -/
theorem Altered.built {t₀ : Tree} {offset : ℕ} {buffer : List UInt8} (huse : InUse fm held σ)
    (h : Altered fm.sectors (FreeMapFile fm held) σ t₀ offset buffer σ' t) (hlaid : Laid σ' t len)
    (hblocks : t.blocks = min (bytesToSectors len) capacity)
    (hrange : ∀ s ∈ t₀.live, (t₀.sector s).toNat < σ.freeMap.bitCnt) :
    InUse fm held σ' ∧ Built fm σ' t len := by
  refine ⟨⟨h.inv, ?_, ⟨?_, fun x hx => ?_⟩⟩, hlaid, hblocks, h.claimed, fun s hs => ?_⟩
  · rw [h.same.freeMapFile]
    exact huse.isOpen
  · exact (h.bits 0).2 (.inl huse.reserved.zero)
  · exact (h.bits _).2 (.inl (huse.reserved.own x hx))
  · rw [h.same.bitCnt]
    by_cases hs₀ : s ∈ t₀.live
    · rw [h.keep s hs₀]
      exact hrange s hs₀
    · exact (Bitmap.mem_free.1 (h.fresh s hs hs₀)).1

/-- **`inode_resize`** to no fewer bytes builds on, and the file keeps its bytes. -/
theorem inodeResize_built (huse : InUse fm held σ) (h : Built fm σ t len) {n : ℕ} (hle : len ≤ n)
    (hn : n < 2 ^ 31) : Ensures (inodeResize held (t.sector .root) n) σ fun ok σ' => ok = true →
      InUse fm held σ' ∧ ∃ t', t'.sector .root = t.sector .root ∧
        Altered fm.sectors (FreeMapFile fm held) σ t n [] σ' t' ∧ Built fm σ' t' n := by
  have hbw := bitmapWrites fm held
  have hplaced : Placed {.root} σ.shift t :=
    { h.placed with stored := fun s hs _ => h.placed.stored s hs (by simp) }
  have hgrow : Growing fm.sectors (FreeMapFile fm held) σ t {.root} σ.shift t :=
    (Growing.refl hplaced ⟨h.claimed.nonzero, h.claimed.taken, h.claimed.notOwn⟩ huse.shift.file
      huse.shift.reserved).rebase
  have hmono := bytesToSectors_mono hle hn
  have hupTo := h.upTo
  -- the grown tree, with its inode stored
  have hstored : ∀ {t₁ : Tree} {σ₁ : FsState},
      Growing fm.sectors (FreeMapFile fm held) σ t {.root} σ₁ t₁ → t₁.tables = tables t₁.blocks →
      t₁.blocks = min (bytesToSectors n) capacity →
      Ensures (setDiskLength (t.sector .root) (t₁.table .root) n) σ₁ fun ok σ' => ok = true →
        InUse fm held σ' ∧ ∃ t', t'.sector .root = t.sector .root ∧
          Altered fm.sectors (FreeMapFile fm held) σ t n [] σ' t' ∧ Built fm σ' t' n := by
    intro t₁ σ₁ hg htables hblocks
    have hroot : t₁.sector .root = t.sector .root := hg.keep .root h.root_mem
    unfold setDiskLength writeSector
    rw [ensures_modify_bind, ← hroot]
    refine ensures_pure fun _ => ?_
    have haltered := hg.store hbw.stable n
    obtain ⟨huse', hbuilt⟩ := haltered.built huse (hg.placed.laid htables hn (by omega)) hblocks
      h.inRange
    exact ⟨huse', t₁.setLength n, rfl, haltered, hbuilt⟩
  unfold inodeResize inodeResizeWith
  rw [ensures_bind_of_run (run_alloc σ)]
  split_ifs with hmem
  · exact ensures_pure fun hok => absurd hok (by simp)
  dsimp only [readSector]
  have hread : σ.shift.store (t.sector .root) = t.table .root := h.store_root
  rw [bind_assoc, ensures_get_bind, pure_bind, hread, h.length]
  split_ifs with hless hmore
  · omega
  · refine (allocateBlocksWith_returns hbw hgrow h.tables h.capacity
      (bytesToSectors n - bytesToSectors len)).ensures.seq fun r σ₁ h₁ => ?_
    obtain ⟨t₁, buf, hs⟩ := h₁
    obtain ⟨ok, d⟩ := r
    dsimp only at hs ⊢
    cases ok with
    | false =>
      rw [if_pos rfl]
      exact ensures_bind_pure fun _ hok => absurd hok (by simp)
    | true =>
      obtain ⟨rfl, htables, hge, hmax⟩ := hs.done rfl
      rw [if_neg (by simp), hs.root]
      refine hstored hs.growing htables ?_
      omega
  · refine hstored hgrow h.tables ?_
    rw [hupTo, show bytesToSectors n = bytesToSectors len by omega]

end Built

/-- A file of up to `8 MB` on a formatted device, and memory for all requests. -/
theorem exists_built {n : ℕ} (hn : n ≤ 512 * capacity) :
    ∃ fm σ t, InUse fm none σ ∧ Built fm σ t n ∧ σ.Memory := by
  have hcapacity : capacity = 16524 := rfl
  obtain ⟨fm, σ, huse, hmem, hfree, htaken, hrange, hown⟩ := exists_inUse
  have hslots := slots_le (bytesToSectors n)
  have hsectors := (bytesToSectors_le (n := n) (by omega)).2 hn
  obtain ⟨ok, σ', hrun, hok⟩ := createInodeWith_returns (bitmapWrites fm none) huse.file huse.reserved
    htaken hown false (show n < 2 ^ 31 by omega)
  rcases hok with ⟨rfl, t, halt, hlaid, hblocks⟩ | ⟨-, hno, -⟩
  · obtain ⟨huse', hbuilt⟩ := halt.built huse hlaid hblocks fun s _ => hrange
    exact ⟨fm, σ', t, huse', hbuilt, halt.same.memory hmem⟩
  · exact absurd ⟨hmem, by omega⟩ hno

end Filesys
end CS162

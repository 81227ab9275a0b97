/-
# Growing a file

`projects1-3/src/filesys/inode.c`, lines 309-408, and `free_map_allocate` of
`free-map.c`.

`allocate_blocks` takes sectors one at a time from the free map and links each
into the file's index tree.  `Placed` says how a tree lies on the sectors: its
index blocks are stored but for those the code has in a buffer (`buf`), and its
sectors are allocated, distinct and not the free map file's (`own`).  `Growing`
compares a tree under construction with the one the call began with, and every
allocation keeps it (`Growing.addData`, `Growing.addTable`).  From that
`allocateBlocksWith_returns` says what a call leaves: all the blocks asked for,
as far as the index tree has entries, or a failure for want of sectors or of
memory.

`BitmapWrites` is what is used of `bitmap_write`: it fails only for want of
memory and changes sectors of the free map's file only.
-/

import CS162.Filesys.BlockMap
import CS162.Filesys.Inode

namespace CS162
namespace Filesys

open CS162.Basis

/-- What allocating and writing sectors leaves as it is. -/
structure Same (σ σ' : FsState) : Prop where
  bitCnt : σ'.freeMap.bitCnt = σ.freeMap.bitCnt
  freeMapFile : σ'.freeMapFile = σ.freeMapFile
  inodes : σ'.inodes = σ.inodes
  openInodes : σ'.openInodes = σ.openInodes
  nextPtr : σ'.nextPtr = σ.nextPtr
  memory : σ.Memory → σ'.Memory

theorem Same.refl (σ : FsState) : Same σ σ := ⟨rfl, rfl, rfl, rfl, rfl, id⟩

theorem Same.trans {σ σ' σ'' : FsState} (h : Same σ σ') (h' : Same σ' σ'') : Same σ σ'' :=
  ⟨h'.bitCnt.trans h.bitCnt, h'.freeMapFile.trans h.freeMapFile, h'.inodes.trans h.inodes,
    h'.openInodes.trans h.openInodes, h'.nextPtr.trans h.nextPtr, h'.memory ∘ h.memory⟩

/-- What is used of `bitmap_write`, the sectors `own` being those of the free
map's file and `inv` what it needs of the state. -/
structure BitmapWrites (bitmapWrite : Kernel Bool) (own : Set BlockSector)
    (inv : FsState → Prop) : Prop where
  stable : ∀ {σ σ'}, inv σ → Same σ σ' → (∀ x ∈ own, σ'.store x = σ.store x) → inv σ'
  write : ∀ {σ}, inv σ → σ.freeMapFile ≠ none → Returns bitmapWrite σ fun written σ' =>
    (σ.Memory → written = true) ∧ inv σ' ∧ Same σ σ' ∧ σ'.freeMap = σ.freeMap ∧
      ∀ x ∉ own, σ'.store x = σ.store x

/-- What a call of `free_map_allocate (1, …)` that fails did: nothing, and with
memory it fails only when no sector is free. -/
structure Missed (own : Set BlockSector) (σ σ' : FsState) : Prop where
  same : Same σ σ'
  freeMap : σ'.freeMap = σ.freeMap
  store : ∀ x ∉ own, σ'.store x = σ.store x
  full : σ.Memory → σ.freeMap.free = ∅

/-- What a call of `free_map_allocate (1, …)` that delivers `v` did. -/
structure Took (own : Set BlockSector) (σ σ' : FsState) (v : BlockSector) : Prop where
  scan : σ.freeMap.scan 0 1 false = some v.toNat
  same : Same σ σ'
  freeMap : σ'.freeMap = σ.freeMap.setMultiple v.toNat 1 true
  store : ∀ x ∉ own, σ'.store x = σ.store x

section Allocate

variable {bitmapWrite : Kernel Bool} {own : Set BlockSector} {inv : FsState → Prop} {σ : FsState}

/-- The sector delivered was free. -/
theorem Took.free {σ' : FsState} {v : BlockSector} (h : Took own σ σ' v) :
    v.toNat ∈ σ.freeMap.free := by
  obtain ⟨hlt, hbit, -⟩ := Bitmap.scan_one_some h.scan
  exact Bitmap.mem_free.2 ⟨hlt, hbit⟩

/-- **`free_map_allocate (1, …)`** delivers the lowest free sector or fails. -/
theorem freeMapAllocateWith_returns (hbw : BitmapWrites bitmapWrite own inv) (h : inv σ) :
    Returns (freeMapAllocateWith bitmapWrite 1) σ fun sector σ' => inv σ' ∧
      ((sector = none ∧ Missed own σ σ') ∨ ∃ v, sector = some v ∧ Took own σ σ' v) := by
  unfold freeMapAllocateWith
  rw [returns_get_bind]
  cases hscan : σ.freeMap.scan 0 1 false with
  | none =>
    simp only [Bitmap.scanAndFlip, hscan, Option.map_none, returns_pure]
    refine ⟨h, .inl ⟨trivial, .refl σ, rfl, fun _ _ => rfl, fun _ => ?_⟩⟩
    refine Finset.eq_empty_of_forall_notMem fun i hi => ?_
    obtain ⟨hlt, hfree⟩ := Bitmap.mem_free.1 hi
    rw [Bitmap.scan_one_none_iff.1 hscan i hlt] at hfree
    cases hfree
  | some i =>
    obtain ⟨hlt, hbit, -⟩ := Bitmap.scan_one_some hscan
    have htoNat : (UInt32.ofNat i).toNat = i := by
      rw [UInt32.toNat_ofNat']
      exact Nat.mod_eq_of_lt (hlt.trans σ.freeMap.bitCnt_lt)
    have hscan' : σ.freeMap.scan 0 1 false = some (UInt32.ofNat i).toNat := by rw [htoNat, hscan]
    set σ₁ : FsState := { σ with freeMap := σ.freeMap.setMultiple i 1 true } with hσ₁
    have hsame₁ : Same σ σ₁ := ⟨rfl, rfl, rfl, rfl, rfl, id⟩
    have hinv₁ : inv σ₁ := hbw.stable h hsame₁ fun _ _ => rfl
    have hset₁ : σ₁.freeMap = σ.freeMap.setMultiple (UInt32.ofNat i).toNat 1 true := by
      rw [htoNat]
    simp only [Bitmap.scanAndFlip, hscan, Option.map_some, returns_set_bind, Bool.not_false]
    split_ifs with hfile
    · rw [returns_pure]
      exact ⟨hinv₁, .inr ⟨_, rfl, hscan', hsame₁, hset₁, fun _ _ => rfl⟩⟩
    · refine (hbw.write hinv₁ hfile).seq fun written σ₂ h₂ => ?_
      obtain ⟨hmem, hinv₂, hsame, hmap, hstore⟩ := h₂
      cases written with
      | true =>
        rw [if_pos rfl, returns_pure]
        exact ⟨hinv₂, .inr ⟨_, rfl, hscan', hsame₁.trans hsame, hmap.trans hset₁, hstore⟩⟩
      | false =>
        -- the bit is cleared again
        have hundo : σ₂.freeMap.setMultiple i 1 false = σ.freeMap := by
          rw [hmap]
          exact Bitmap.setMultiple_undo _ hbit
        have hsame₂ : Same σ₂ { σ₂ with freeMap := σ₂.freeMap.setMultiple i 1 false } :=
          ⟨rfl, rfl, rfl, rfl, rfl, id⟩
        rw [if_neg (by simp), returns_modify_bind, returns_pure]
        refine ⟨hbw.stable hinv₂ hsame₂ fun _ _ => rfl, .inl ⟨rfl, ?_, hundo, hstore, fun hm => ?_⟩⟩
        · exact (hsame₁.trans hsame).trans hsame₂
        · cases hmem hm

end Allocate

/-! ### Trees on sectors -/

/-- How an index tree lies on the sectors.  The index blocks in `buf` are not
stored, or not up to date. -/
structure Placed (buf : Set Slot) (σ : FsState) (t : Tree) : Prop where
  linked : t.Linked
  noData : ∀ b, .data b ∉ t.tables
  root : .root ∈ t.tables
  distinct : ∀ s ∈ t.live, ∀ s' ∈ t.live, t.sector s = t.sector s' → s = s'
  stored : ∀ s ∈ t.tables, s ∉ buf → σ.store (t.sector s) = t.table s

/-- The sectors of a tree are allocated, to a file other than the free map's. -/
structure Claimed (own : Set BlockSector) (σ : FsState) (t : Tree) : Prop where
  nonzero : ∀ s ∈ t.live, s ≠ .root → t.sector s ≠ 0
  taken : ∀ s ∈ t.live, σ.freeMap.bits (t.sector s).toNat = true
  notOwn : ∀ s ∈ t.live, t.sector s ∉ own

/-- What the free map says of the sectors that are nobody's to allocate. -/
structure Reserved (own : Set BlockSector) (σ : FsState) : Prop where
  zero : σ.freeMap.bits 0 = true
  own : ∀ x ∈ own, σ.freeMap.bits x.toNat = true

/-- The nodes of a tree `t` that has grown from `t₀`, and what the free map says of
them: the sectors were taken from the lowest free one on, and data block `b` got
its sector after all the nodes in front of it. -/
structure Grown (σ₀ : FsState) (t₀ : Tree) (σ : FsState) (t : Tree) : Prop where
  same : Same σ₀ σ
  blocks : t₀.blocks ≤ t.blocks
  tables : t₀.tables ⊆ t.tables
  keep : ∀ s ∈ t₀.live, t.sector s = t₀.sector s
  fresh : ∀ s ∈ t.live, s ∉ t₀.live → (t.sector s).toNat ∈ σ₀.freeMap.free
  bits : ∀ n, σ.freeMap.bits n = true ↔
    σ₀.freeMap.bits n = true ∨ ∃ s ∈ t.live, s ∉ t₀.live ∧ (t.sector s).toNat = n
  count : σ.freeMap.free.card + t.used = σ₀.freeMap.free.card + t₀.used
  order : σ.freeMap = σ₀.freeMap.taken (t.used - t₀.used)
  nth : ∀ b, t₀.blocks ≤ b → b < t.blocks →
    σ₀.freeMap.nth (slots (b + 1) - 1 - t₀.used) = some (t.sector (.data b)).toNat

/-- A tree has grown from itself. -/
theorem Grown.refl (σ : FsState) (t : Tree) : Grown σ t σ t where
  same := .refl σ
  blocks := le_rfl
  tables := Finset.Subset.refl _
  keep _ _ := rfl
  fresh _ hs hn := absurd hs hn
  bits _ := ⟨.inl, fun h => h.elim id fun ⟨_, hs, hn, _⟩ => absurd hs hn⟩
  count := rfl
  order := by rw [Nat.sub_self, Bitmap.taken]
  nth _ hb hb' := absurd hb' (not_lt.2 hb)

/-- The nodes of the smaller tree are nodes of the larger. -/
theorem Grown.live {σ₀ σ : FsState} {t₀ t : Tree} (h : Grown σ₀ t₀ σ t) : t₀.live ⊆ t.live := by
  rintro s (hs | ⟨b, hb, rfl⟩)
  · exact .inl (h.tables hs)
  · exact .inr ⟨b, hb.trans_le h.blocks, rfl⟩

theorem Grown.used {σ₀ σ : FsState} {t₀ t : Tree} (h : Grown σ₀ t₀ σ t) : t₀.used ≤ t.used :=
  Nat.add_le_add h.blocks (Finset.card_le_card h.tables)

/-- A sector that is free now was free before. -/
theorem Grown.free {σ₀ σ : FsState} {t₀ t : Tree} (h : Grown σ₀ t₀ σ t) {n : ℕ}
    (hn : n ∈ σ.freeMap.free) : n ∈ σ₀.freeMap.free := by
  obtain ⟨hlt, hbit⟩ := Bitmap.mem_free.1 hn
  refine Bitmap.mem_free.2 ⟨h.same.bitCnt ▸ hlt, ?_⟩
  by_contra hset
  rw [Bool.not_eq_false] at hset
  rw [(h.bits n).2 (.inl hset)] at hbit
  cases hbit

/-- **Growing twice.** -/
theorem Grown.trans {σ₀ σ₁ σ₂ : FsState} {t₀ t₁ t₂ : Tree} (h : Grown σ₀ t₀ σ₁ t₁)
    (htables : t₁.tables = Filesys.tables t₁.blocks) (h' : Grown σ₁ t₁ σ₂ t₂) :
    Grown σ₀ t₀ σ₂ t₂ where
  same := h.same.trans h'.same
  blocks := h.blocks.trans h'.blocks
  tables := h.tables.trans h'.tables
  keep s hs := (h'.keep s (h.live hs)).trans (h.keep s hs)
  fresh s hs hn := by
    by_cases hs₁ : s ∈ t₁.live
    · rw [h'.keep s hs₁]
      exact h.fresh s hs₁ hn
    · exact h.free (h'.fresh s hs hs₁)
  bits n := by
    rw [h'.bits, h.bits]
    constructor
    · rintro ((hn | ⟨s, hs, hs₀, rfl⟩) | ⟨s, hs, hs₁, rfl⟩)
      · exact .inl hn
      · exact .inr ⟨s, h'.live hs, hs₀, by rw [h'.keep s hs]⟩
      · exact .inr ⟨s, hs, fun hs₀ => hs₁ (h.live hs₀), rfl⟩
    · rintro (hn | ⟨s, hs, hs₀, rfl⟩)
      · exact .inl (.inl hn)
      · by_cases hs₁ : s ∈ t₁.live
        · exact .inl (.inr ⟨s, hs₁, hs₀, by rw [h'.keep s hs₁]⟩)
        · exact .inr ⟨s, hs, hs₁, rfl⟩
  count := h'.count.trans h.count
  order := by
    have := h.used
    have := h'.used
    rw [h'.order, h.order, Bitmap.taken_taken]
    congr 1
    omega
  nth b hb hb' := by
    rcases Nat.lt_or_ge b t₁.blocks with hlt | hge
    · rw [h'.keep _ (.inr ⟨b, hlt, rfl⟩)]
      exact h.nth b hb hlt
    · have hnth := h'.nth b hge hb'
      have hslots : t₁.used ≤ slots (b + 1) - 1 := by
        have hcard : (Filesys.tables t₁.blocks).card ≤ (Filesys.tables (b + 1)).card :=
          Finset.card_le_card (tables_subset (Nat.le_succ_of_le hge))
        rw [Tree.used, htables, slots]
        omega
      have hused := h.used
      rw [h.order, Bitmap.nth_taken] at hnth
      rw [← hnth]
      congr 1
      omega

/-- Only the free map matters, and what stays the same. -/
theorem Grown.congr {σ₀ σ₀' σ σ' : FsState} {t₀ t : Tree} (h : Grown σ₀ t₀ σ t)
    (hmap₀ : σ₀'.freeMap = σ₀.freeMap) (hmap : σ'.freeMap = σ.freeMap) (hsame : Same σ₀' σ') :
    Grown σ₀' t₀ σ' t where
  same := hsame
  blocks := h.blocks
  tables := h.tables
  keep := h.keep
  fresh s hs hn := hmap₀ ▸ h.fresh s hs hn
  bits n := by
    rw [hmap₀, hmap]
    exact h.bits n
  count := by
    rw [hmap₀, hmap]
    exact h.count
  order := by
    rw [hmap₀, hmap]
    exact h.order
  nth b hb hb' := by
    rw [hmap₀]
    exact h.nth b hb hb'

/-- A tree `t` under construction that has grown from `t₀`. -/
structure Growing (own : Set BlockSector) (inv : FsState → Prop) (σ₀ : FsState) (t₀ : Tree)
    (buf : Set Slot) (σ : FsState) (t : Tree) : Prop extends Grown σ₀ t₀ σ t where
  placed : Placed buf σ t
  claimed : Claimed own σ t
  inv : inv σ
  reserved : Reserved own σ₀
  outside : ∀ x ∉ own, (∀ s ∈ t.tables, s ≠ .root → t.sector s ≠ x) → σ.store x = σ₀.store x
  tail : ∀ j : Fin 512, 56 ≤ j.val → t.table .root j = t₀.table .root j

namespace Growing

variable {own : Set BlockSector} {inv : FsState → Prop} {σ₀ σ σ' : FsState} {t₀ t : Tree}
  {buf : Set Slot} {v : BlockSector} {p c : Slot} {i : Fin 128}

/-- A tree has grown from itself. -/
theorem refl (h : Placed buf σ t) (hc : Claimed own σ t) (hinv : inv σ) (hr : Reserved own σ) :
    Growing own inv σ t buf σ t where
  toGrown := .refl σ t
  placed := h
  claimed := hc
  inv := hinv
  reserved := hr
  outside _ _ _ := rfl
  tail _ _ := rfl

/-- A free sector is none of the tree's. -/
theorem sector_ne (h : Growing own inv σ₀ t₀ buf σ t) (hv : v.toNat ∈ σ.freeMap.free) {s : Slot}
    (hs : s ∈ t.live) : t.sector s ≠ v := by
  rintro rfl
  have hbit := (Bitmap.mem_free.1 hv).2
  rw [h.claimed.taken s hs] at hbit
  cases hbit

/-- A free sector is none of the free map file's. -/
theorem notMem_own (h : Growing own inv σ₀ t₀ buf σ t) (hv : v.toNat ∈ σ.freeMap.free) :
    v ∉ own := by
  intro hmem
  have hbit := (Bitmap.mem_free.1 (h.free hv)).2
  rw [h.reserved.own v hmem] at hbit
  cases hbit

/-- A free sector is not sector `0`. -/
theorem ne_zero (h : Growing own inv σ₀ t₀ buf σ t) (hv : v.toNat ∈ σ.freeMap.free) : v ≠ 0 := by
  rintro rfl
  have hbit := (Bitmap.mem_free.1 (h.free hv)).2
  rw [show (0 : BlockSector).toNat = 0 from rfl, h.reserved.zero] at hbit
  cases hbit

/-- **One more node.**  A sector was taken from the free map and the tree has it
as the node `c`. -/
theorem grow (h : Growing own inv σ₀ t₀ buf σ t) {t' : Tree} (hinv : inv σ')
    (hscan : σ.freeMap.scan 0 1 false = some v.toNat) (hsame : Same σ σ')
    (hmap : σ'.freeMap = σ.freeMap.setMultiple v.toNat 1 true) (hlinked : t'.Linked)
    (hlive : t'.live = insert c t.live) (hnew : c ∉ t.live)
    (hsector : t'.sector = Function.update t.sector c v) (hnoData : ∀ b, .data b ∉ t'.tables)
    (hblocks : t.blocks ≤ t'.blocks) (htables : t.tables ⊆ t'.tables)
    (hcount : t'.used = t.used + 1)
    (hdata : ∀ b, t.blocks ≤ b → b < t'.blocks → c = .data b ∧ slots (b + 1) = t'.used)
    (hstored : ∀ s ∈ t'.tables, s ∉ buf → σ'.store (t'.sector s) = t'.table s)
    (houtside : ∀ x ∉ own, (∀ s ∈ t'.tables, s ≠ .root → t'.sector s ≠ x) →
      σ'.store x = σ.store x)
    (htail : ∀ j : Fin 512, 56 ≤ j.val → t'.table .root j = t.table .root j) :
    Growing own inv σ₀ t₀ buf σ' t' := by
  have hv : v.toNat ∈ σ.freeMap.free := by
    obtain ⟨hlt, hbit, -⟩ := Bitmap.scan_one_some hscan
    exact Bitmap.mem_free.2 ⟨hlt, hbit⟩
  have hused := h.used
  have hnext : σ₀.freeMap.nth (t.used - t₀.used) = some v.toNat := by
    rw [Bitmap.nth, ← h.order]
    exact hscan
  have hold : ∀ {s}, s ∈ t.live → t'.sector s = t.sector s := by
    intro s hs
    rw [hsector, Function.update_of_ne]
    rintro rfl
    exact hnew hs
  have hself : t'.sector c = v := by rw [hsector, Function.update_self]
  have hsub₀ : ∀ {s}, s ∈ t₀.live → s ∈ t.live := fun hs => h.live hs
  have hcases : ∀ {s}, s ∈ t'.live → s = c ∨ s ∈ t.live := by
    intro s hs
    rw [hlive] at hs
    exact hs
  have hc' : c ∈ t'.live := by
    rw [hlive]
    exact .inl rfl
  have hlift : ∀ {s}, s ∈ t.live → s ∈ t'.live := by
    intro s hs
    rw [hlive]
    exact .inr hs
  have hset : ∀ n, σ'.freeMap.bits n = true ↔ n = v.toNat ∨ σ.freeMap.bits n = true := by
    intro n
    rw [hmap, Bitmap.bits_setMultiple_one]
    split_ifs with hn
    · simp [hn]
    · simp [hn]
  refine ⟨⟨h.same.trans hsame, h.blocks.trans hblocks, h.tables.trans htables, ?_, ?_, ?_, ?_, ?_,
    ?_⟩, ⟨hlinked, hnoData, htables h.placed.root, ?_, hstored⟩, ⟨?_, ?_, ?_⟩, hinv, h.reserved, ?_,
    ?_⟩
  · intro s hs
    rw [hold (hsub₀ hs), h.keep s hs]
  · intro s hs hs₀
    rcases hcases hs with rfl | hs
    · rw [hself]
      exact h.free hv
    · rw [hold hs]
      exact h.fresh s hs hs₀
  · intro n
    rw [hset, h.bits]
    constructor
    · rintro (rfl | hn | ⟨s, hs, hs₀, rfl⟩)
      · exact .inr ⟨c, hc', fun hc₀ => hnew (hsub₀ hc₀), by rw [hself]⟩
      · exact .inl hn
      · exact .inr ⟨s, hlift hs, hs₀, by rw [hold hs]⟩
    · rintro (hn | ⟨s, hs, hs₀, rfl⟩)
      · exact .inr (.inl hn)
      · rcases hcases hs with rfl | hs
        · exact .inl (by rw [hself])
        · exact .inr (.inr ⟨s, hs, hs₀, by rw [hold hs]⟩)
  · have hcard : σ'.freeMap.free.card + 1 = σ.freeMap.free.card := by
      rw [hmap, Bitmap.free_setMultiple_one]
      exact Finset.card_erase_add_one hv
    have := h.count
    omega
  · rw [hmap, hcount, Nat.succ_sub hused, Bitmap.taken_succ hnext, ← h.order]
  · intro b hb₀ hb'
    rcases Nat.lt_or_ge b t.blocks with hb | hb
    · rw [hold (.inr ⟨b, hb, rfl⟩)]
      exact h.nth b hb₀ hb
    · obtain ⟨rfl, hslots⟩ := hdata b hb hb'
      rw [hself, hslots, hcount, Nat.add_sub_cancel]
      exact hnext
  · -- the sectors stay distinct: the new one was free
    intro s hs s' hs' heq
    rcases hcases hs with rfl | hs <;> rcases hcases hs' with rfl | hs'
    · rfl
    · rw [hself, hold hs'] at heq
      exact absurd heq.symm (h.sector_ne hv hs')
    · rw [hself, hold hs] at heq
      exact absurd heq (h.sector_ne hv hs)
    · rw [hold hs, hold hs'] at heq
      exact h.placed.distinct s hs s' hs' heq
  · intro s hs hroot
    rcases hcases hs with rfl | hs
    · rw [hself]
      exact h.ne_zero hv
    · rw [hold hs]
      exact h.claimed.nonzero s hs hroot
  · intro s hs
    rw [hset]
    rcases hcases hs with rfl | hs
    · exact .inl (by rw [hself])
    · rw [hold hs]
      exact .inr (h.claimed.taken s hs)
  · intro s hs
    rcases hcases hs with rfl | hs
    · rw [hself]
      exact h.notMem_own hv
    · rw [hold hs]
      exact h.claimed.notOwn s hs
  · intro x hx hno
    rw [houtside x hx hno]
    refine h.outside x hx fun s hs hroot => ?_
    rw [← hold (.inl hs)]
    exact hno s (htables hs) hroot
  · intro j hj
    rw [htail j hj, h.tail j hj]

/-- An entry of the inode is in front of `length`. -/
theorem tail_setWord {d : Sector} {i : Fin 128} (hi : i.val < 14) (v : UInt32) {j : Fin 512}
    (hj : 56 ≤ j.val) : d.setWord i v j = d j := by
  unfold Sector.setWord
  rw [if_neg (by omega)]

theorem root_child_lt {i : Fin 128} {c : Slot} (h : Slot.root.child i = some c) : i.val < 14 := by
  simp only [Slot.child] at h
  split_ifs at h <;> omega

/-- **One more data block**, under an entry of a table in a buffer. -/
theorem addData (h : Growing own inv σ₀ t₀ buf σ t) (hinv : inv σ') (htook : Took own σ σ' v)
    (hp : p ∈ t.tables) (hbuf : p ∈ buf) (hc : p.child i = some (.data t.blocks))
    (htables : t.tables = Filesys.tables (t.blocks + 1)) :
    Growing own inv σ₀ t₀ buf σ' (t.addData p i v) := by
  have hno := h.placed.noData
  have hnew : Slot.data t.blocks ∉ t.live := by
    rw [Tree.mem_live_data (hno _)]
    exact lt_irrefl _
  have hsector : ∀ s ∈ t.tables, (t.addData p i v).sector s = t.sector s := by
    intro s hs
    refine Function.update_of_ne ?_ _ _
    rintro rfl
    exact hno _ hs
  refine h.grow hinv htook.scan htook.same htook.freeMap
    (h.placed.linked.addData v hp hc (hno _)) (t.live_addData p i v) hnew rfl hno (Nat.le_succ _)
    (Finset.Subset.refl _) ?_ (fun b hb hb' => ?_) (fun s hs hs' => ?_)
    (fun x hx _ => htook.store x hx) fun j hj => ?_
  · show t.blocks + 1 + t.tables.card = t.blocks + t.tables.card + 1
    omega
  · obtain rfl : b = t.blocks := Nat.le_antisymm (Nat.le_of_lt_succ hb') hb
    refine ⟨rfl, ?_⟩
    show t.blocks + 1 + _ = t.blocks + 1 + t.tables.card
    rw [← htables]
  · have hsp : s ≠ p := by
      rintro rfl
      exact hs' hbuf
    have htable : (t.addData p i v).table s = t.table s := Function.update_of_ne hsp _ _
    rw [hsector s hs, htook.store _ (h.claimed.notOwn s (.inl hs)), htable]
    exact h.placed.stored s hs hs'
  · show Function.update t.table p _ .root j = _
    by_cases hroot : .root = p
    · subst hroot
      rw [Function.update_self]
      exact tail_setWord (root_child_lt hc) v hj
    · rw [Function.update_of_ne hroot]

/-- **One more index block**, zeroed, under an entry of a table in a buffer. -/
theorem addTable (h : Growing own inv σ₀ t₀ buf σ t) (hinv : inv σ') (htook : Took own σ σ' v)
    (hbw : ∀ {σ σ'}, inv σ → Same σ σ' → (∀ x ∈ own, σ'.store x = σ.store x) → inv σ')
    (hp : p ∈ t.tables) (hbuf : p ∈ buf) (hc : p.child i = some c) (hnew : c ∉ t.live)
    (hdata : ∀ b, c ≠ .data b) (hchild : ∀ j d, c.child j = some d → d ∉ t.live) :
    Growing own inv σ₀ t₀ buf { σ' with store := Function.update σ'.store v Sector.zero }
      (t.addTable p i c v) := by
  have hv := h.notMem_own htook.free
  have hcroot : c ≠ .root := by
    rintro rfl
    exact hnew (.inl h.placed.root)
  have hpc : p ≠ c := by
    rintro rfl
    exact hnew (.inl hp)
  have hsector : ∀ s ∈ t.tables, (t.addTable p i c v).sector s = t.sector s := by
    intro s hs
    refine Function.update_of_ne ?_ _ _
    rintro rfl
    exact hnew (.inl hs)
  have hself : (t.addTable p i c v).sector c = v := Function.update_self ..
  refine h.grow (hbw hinv ⟨rfl, rfl, rfl, rfl, rfl, id⟩ fun x hx => ?_) htook.scan ?_ htook.freeMap
    (h.placed.linked.addTable v hp hc hnew hchild) (t.live_addTable p i c v) hnew rfl
    (fun b hb => ?_) le_rfl (Finset.subset_insert _ _) ?_
    (fun b hb hb' => absurd hb' (not_lt.2 hb)) (fun s hs hs' => ?_) (fun x hx hno => ?_)
    fun j hj => ?_
  · refine Function.update_of_ne ?_ _ _
    rintro rfl
    exact hv hx
  · exact htook.same.trans ⟨rfl, rfl, rfl, rfl, rfl, id⟩
  · rcases Finset.mem_insert.1 hb with heq | hb
    · exact hdata b heq.symm
    · exact h.placed.noData b hb
  · show t.blocks + (insert c t.tables).card = t.blocks + t.tables.card + 1
    rw [Finset.card_insert_of_notMem fun hmem => hnew (.inl hmem), Nat.add_assoc]
  · have hsp : s ≠ p := by
      rintro rfl
      exact hs' hbuf
    have htable : (t.addTable p i c v).table s = Function.update t.table c Sector.zero s :=
      Function.update_of_ne hsp _ _
    by_cases hsc : s = c
    · subst hsc
      rw [hself, htable, Function.update_self]
      exact Function.update_self ..
    · have hmem : s ∈ t.tables := (Finset.mem_insert.1 hs).resolve_left hsc
      rw [hsector s hmem, htable, Function.update_of_ne hsc]
      show Function.update σ'.store v Sector.zero (t.sector s) = _
      rw [Function.update_of_ne (h.sector_ne htook.free (.inl hmem)),
        htook.store _ (h.claimed.notOwn s (.inl hmem))]
      exact h.placed.stored s hmem hs'
  · have hxv : x ≠ v := by
      rintro rfl
      exact hno c (Finset.mem_insert_self _ _) hcroot hself
    show Function.update σ'.store v Sector.zero x = _
    rw [Function.update_of_ne hxv]
    exact htook.store x hx
  · show Function.update (Function.update t.table c Sector.zero) p _ .root j = _
    by_cases hroot : .root = p
    · subst hroot
      rw [Function.update_self]
      exact tail_setWord (root_child_lt hc) v hj
    · rw [Function.update_of_ne hroot, Function.update_of_ne hcroot.symm]

/-- An allocation that failed. -/
theorem missed (h : Growing own inv σ₀ t₀ buf σ t) (hinv : inv σ') (hm : Missed own σ σ') :
    Growing own inv σ₀ t₀ buf σ' t :=
  { h with
    placed := { h.placed with
      stored := fun s hs hn => by
        rw [hm.store _ (h.claimed.notOwn s (.inl hs))]
        exact h.placed.stored s hs hn }
    claimed := { h.claimed with
      taken := fun s hs => by
        rw [hm.freeMap]
        exact h.claimed.taken s hs }
    inv := hinv
    same := h.same.trans hm.same
    bits := fun n => by
      rw [hm.freeMap]
      exact h.bits n
    count := by
      rw [hm.freeMap]
      exact h.count
    order := hm.freeMap.trans h.order
    outside := fun x hx hno => (hm.store x hx).trans (h.outside x hx hno) }

/-- With memory, an allocation fails only when no sector is free. -/
theorem full_of_missed (h : Growing own inv σ₀ t₀ buf σ t) (hm : Missed own σ σ')
    (hmem : σ₀.Memory) : σ'.freeMap.free = ∅ := by
  rw [hm.freeMap]
  exact hm.full (h.same.memory hmem)

/-- Fewer index blocks need be up to date. -/
theorem buffer (h : Growing own inv σ₀ t₀ buf σ t) {buf' : Set Slot} (hbuf : buf ⊆ buf') :
    Growing own inv σ₀ t₀ buf' σ t :=
  { h with placed := { h.placed with stored := fun s hs hn => h.placed.stored s hs fun hb => hn (hbuf hb) } }

/-- Writing an index block back from its buffer. -/
theorem save (h : Growing own inv σ₀ t₀ buf σ t)
    (hbw : ∀ {σ σ'}, inv σ → Same σ σ' → (∀ x ∈ own, σ'.store x = σ.store x) → inv σ')
    (hp : p ∈ t.tables) (hroot : p ≠ .root) :
    Growing own inv σ₀ t₀ (buf \ {p})
      { σ with store := Function.update σ.store (t.sector p) (t.table p) } t := by
  refine { h with
    placed := { h.placed with stored := fun s hs hn => ?_ }
    claimed := ⟨h.claimed.nonzero, h.claimed.taken, h.claimed.notOwn⟩
    inv := hbw h.inv ⟨rfl, rfl, rfl, rfl, rfl, id⟩ fun x hx => ?_
    same := h.same.trans ⟨rfl, rfl, rfl, rfl, rfl, id⟩
    outside := fun x hx hno => ?_ }
  · by_cases hsp : s = p
    · subst hsp
      exact Function.update_self ..
    · have hne : t.sector s ≠ t.sector p :=
        fun he => hsp (h.placed.distinct s (.inl hs) p (.inl hp) he)
      show Function.update σ.store _ _ (t.sector s) = _
      rw [Function.update_of_ne hne]
      exact h.placed.stored s hs fun hb => hn ⟨hb, hsp⟩
  · refine Function.update_of_ne ?_ _ _
    rintro rfl
    exact h.claimed.notOwn p (.inl hp) hx
  · show Function.update σ.store _ _ x = _
    rw [Function.update_of_ne (hno p hp hroot).symm]
    exact h.outside x hx hno

end Growing

/-! ### The loops of `allocate_blocks` -/

/-- `t'` has the index block `c` in sector `v` under entry `i` of `p`, and is `t`
otherwise. -/
structure Opens (t t' : Tree) (p : Slot) (i : Fin 128) (c : Slot) (v : BlockSector) : Prop where
  blocks : t'.blocks = t.blocks
  tables : t'.tables = insert c t.tables
  table_self : t'.table p = (t.table p).setWord i v
  table : ∀ s ∈ t.tables, s ≠ p → t'.table s = t.table s
  sector_self : t'.sector c = v
  sector : ∀ s ∈ t.tables, t'.sector s = t.sector s

/-- `t'` has more blocks than `t`, put under entries of `p`. -/
structure Extends (t t' : Tree) (p : Slot) : Prop where
  blocks : t.blocks ≤ t'.blocks
  tables : t'.tables = t.tables
  table : ∀ s ≠ p, t'.table s = t.table s
  sector : ∀ s ∈ t.tables, t'.sector s = t.sector s

theorem Extends.refl (t : Tree) (p : Slot) : Extends t t p :=
  ⟨le_rfl, rfl, fun _ _ => rfl, fun _ _ => rfl⟩

section Loops

variable {bitmapWrite : Kernel Bool} {own : Set BlockSector} {inv : FsState → Prop}
  {σ₀ : FsState} {t₀ : Tree} {buf : Set Slot}

/-- **Filling a table.**  Entry `j` of `p` stands for data block `base + j` and
the blocks below `base + i` are there; the loop goes on to `goal` or to the
table's end.  By induction on the entries to come: an entry that is not `0` is a
block the tree has, and the first `0` is the next block. -/
theorem fillEntries_returns (hbw : BitmapWrites bitmapWrite own inv) {p : Slot} {base blocks goal : ℕ}
    (is : List (Fin 128)) :
    ∀ {i n allocated : ℕ} {σ : FsState} {t : Tree}, Growing own inv σ₀ t₀ buf σ t →
      p ∈ t.tables → p ∈ buf → is.map Fin.val = List.range' i n →
      (∀ j ∈ is, p.child j = some (.data (base + j.val))) → base + i ≤ t.blocks →
      (∀ b, t.blocks ≤ b → b < base + i + n → t.tables = tables (b + 1)) →
      t.blocks + blocks = goal + allocated →
      Returns (fillEntries bitmapWrite blocks is (t.table p) allocated) σ fun r σ' =>
        ∃ t', Growing own inv σ₀ t₀ buf σ' t' ∧ Extends t t' p ∧ r.2.1 = t'.table p ∧
          t'.blocks + blocks = goal + r.2.2 ∧ t'.blocks ≤ max t.blocks (min goal (base + i + n)) ∧
          (r.1 = true → min goal (base + i + n) ≤ t'.blocks) ∧
          (r.1 = false → t'.blocks < goal ∧ (σ₀.Memory → σ'.freeMap.free = ∅)) := by
  induction is with
  | nil =>
    intro i n allocated σ t h hp hbuf his _ hbase _ hgoal
    have hn : 0 = n := by simpa using congrArg List.length his
    rw [fillEntries, returns_pure]
    refine ⟨t, h, .refl t p, rfl, hgoal, le_max_left _ _, fun _ => ?_, by simp⟩
    omega
  | cons a is ih =>
    intro i n allocated σ t h hp hbuf his hchild hbase htables hgoal
    obtain ⟨m, rfl, ha, his'⟩ := map_val_cons his
    have hchild' : ∀ j ∈ is, p.child j = some (.data (base + j.val)) :=
      fun j hj => hchild j (List.mem_cons_of_mem _ hj)
    have hca := hchild a List.mem_cons_self
    rw [ha] at hca
    have hend : base + i + (m + 1) = base + (i + 1) + m := by omega
    rw [hend] at htables ⊢
    rw [fillEntries]
    split_ifs with hmore hentry
    · -- entry `0`: the next block goes here
      have hblocks : t.blocks = base + i := by
        by_contra hne
        have hlive : Slot.data (base + i) ∈ t.live := .inr ⟨base + i, by omega, rfl⟩
        have hword := h.placed.linked.word_eq hp hca hlive
        rw [hentry] at hword
        exact h.claimed.nonzero _ hlive (by simp) hword.symm
      refine (freeMapAllocateWith_returns hbw h.inv).seq fun sector σ₁ h₁ => ?_
      obtain ⟨hinv, ⟨rfl, hmiss⟩ | ⟨v, rfl, htook⟩⟩ := h₁
      · dsimp only
        rw [returns_pure]
        have hlt : t.blocks < goal := by omega
        refine ⟨t, h.missed hinv hmiss, .refl t p, rfl, hgoal, le_max_left _ _, by simp,
          fun _ => ⟨hlt, h.full_of_missed hmiss⟩⟩
      · have hg := h.addData hinv htook hp hbuf (i := a) (by rw [hca, hblocks])
          (htables _ le_rfl (by omega))
        have htable : (t.addData p a v).table p = (t.table p).setWord a v := Function.update_self ..
        have hnext := @ih (i + 1) m (allocated + 1) _ _ hg hp hbuf his' hchild'
          (by show base + (i + 1) ≤ t.blocks + 1; omega)
          (fun b hb hb' => htables b (Nat.le_of_succ_le hb) hb')
          (by show t.blocks + 1 + blocks = _; omega)
        rw [htable] at hnext
        refine hnext.mono fun r σ₂ h₂ => ?_
        obtain ⟨t', hg', hext, htab, hcount, hle, hok, hfail⟩ := h₂
        have hle₁ : t.blocks + 1 ≤ t'.blocks := hext.blocks
        have hle₂ : t'.blocks ≤ max (t.blocks + 1) (min goal (base + (i + 1) + m)) := hle
        refine ⟨t', hg', ⟨by omega, hext.tables, fun s hs => ?_, fun s hs => ?_⟩, htab, hcount,
          by omega, hok, hfail⟩
        · rw [hext.table s hs]
          exact Function.update_of_ne hs _ _
        · rw [hext.sector s hs]
          refine Function.update_of_ne ?_ _ _
          rintro rfl
          exact h.placed.noData _ hs
    · -- an entry that is not `0` is a block the tree has
      have hlt : base + i < t.blocks := by
        by_contra hge
        have hdead : Slot.data (base + i) ∉ t.live := by
          rw [Tree.mem_live_data (h.placed.noData _)]
          omega
        exact hentry (h.placed.linked.word_eq_zero hp hca hdead)
      exact ih h hp hbuf his' hchild' (by omega) htables hgoal
    · rw [returns_pure]
      refine ⟨t, h, .refl t p, rfl, hgoal, le_max_left _ _, fun _ => ?_, by simp⟩
      omega

/-- **An index block**, taken as it is or allocated and zeroed. -/
theorem openTable_returns (hbw : BitmapWrites bitmapWrite own inv) {σ : FsState} {t : Tree}
    (h : Growing own inv σ₀ t₀ buf σ t) {p c : Slot} {i : Fin 128} (hp : p ∈ t.tables)
    (hbuf : p ∈ buf) (hc : p.child i = some c) (hdata : ∀ b, c ≠ .data b)
    (hchild : c ∉ t.tables → ∀ j d, c.child j = some d → d ∉ t.live) :
    Returns (openTable bitmapWrite ((t.table p).word i)) σ fun r σ' =>
      (r = none ∧ Growing own inv σ₀ t₀ buf σ' t ∧ (σ₀.Memory → σ'.freeMap.free = ∅)) ∨
        ∃ v t', r = some v ∧ Growing own inv σ₀ t₀ buf σ' t' ∧ Opens t t' p i c v := by
  have hlive : c ∈ t.live ↔ c ∈ t.tables := Tree.mem_live_of_not_data hdata
  have hcroot : c ≠ .root := by
    rintro rfl
    have := Slot.parent_eq_of_child hc
    cases this
  unfold openTable
  by_cases hopen : c ∈ t.tables
  · have hword := h.placed.linked.word_eq hp hc (.inl hopen)
    have hne := h.claimed.nonzero c (.inl hopen) hcroot
    rw [hword, if_neg hne, returns_pure]
    refine .inr ⟨_, t, rfl, h, rfl, (Finset.insert_eq_of_mem hopen).symm, ?_, fun _ _ _ => rfl, rfl,
      fun _ _ => rfl⟩
    rw [← hword, Sector.setWord_word]
  · have hword := h.placed.linked.word_eq_zero hp hc fun hl => hopen (hlive.1 hl)
    rw [if_pos hword]
    refine (freeMapAllocateWith_returns hbw h.inv).seq fun sector σ₁ h₁ => ?_
    obtain ⟨hinv, ⟨rfl, hmiss⟩ | ⟨v, rfl, htook⟩⟩ := h₁
    · dsimp only
      rw [returns_pure]
      exact .inl ⟨rfl, h.missed hinv hmiss, h.full_of_missed hmiss⟩
    · have hg := h.addTable hinv htook hbw.stable hp hbuf hc (fun hl => hopen (hlive.1 hl)) hdata
        (hchild hopen)
      dsimp only [writeSector]
      rw [returns_modify_bind, returns_pure]
      have hpc : ∀ s ∈ t.tables, s ≠ c := fun s hs he => hopen (he ▸ hs)
      refine .inr ⟨v, _, rfl, hg, rfl, rfl, Function.update_self .., fun s hs hsp => ?_,
        Function.update_self .., fun s hs => Function.update_of_ne (hpc s hs) _ _⟩
      show Function.update (Function.update t.table c Sector.zero) p _ s = _
      rw [Function.update_of_ne hsp, Function.update_of_ne (hpc s hs)]

/-- Reading an index block, filling it and writing it back if that succeeded. -/
theorem fillTable_returns (hbw : BitmapWrites bitmapWrite own inv) {σ : FsState} {t : Tree}
    (h : Growing own inv σ₀ t₀ buf σ t) {p : Slot} {base blocks goal allocated : ℕ}
    (hp : p ∈ t.tables) (hroot : p ≠ .root) (hbuf : p ∉ buf)
    (hchild : ∀ j, p.child j = some (.data (base + j.val))) (hbase : base ≤ t.blocks)
    (htables : ∀ b, t.blocks ≤ b → b < base + 128 → t.tables = tables (b + 1))
    (hgoal : t.blocks + blocks = goal + allocated) :
    Returns (fillEntries bitmapWrite blocks (List.finRange 128) (σ.store (t.sector p)) allocated) σ
      fun r σ' => ∃ t', Growing own inv σ₀ t₀ (insert p buf) σ' t' ∧
        Growing own inv σ₀ t₀ buf
          { σ' with store := Function.update σ'.store (t.sector p) r.2.1 } t' ∧
        Extends t t' p ∧ t'.blocks + blocks = goal + r.2.2 ∧
        t'.blocks ≤ max t.blocks (min goal (base + 128)) ∧
        (r.1 = true → min goal (base + 128) ≤ t'.blocks) ∧
        (r.1 = false → t'.blocks < goal ∧ (σ₀.Memory → σ'.freeMap.free = ∅)) := by
  rw [h.placed.stored p hp hbuf]
  have hrange : (List.finRange 128).map Fin.val = List.range' 0 128 := by
    rw [List.map_coe_finRange_eq_range, List.range_eq_range']
  refine (fillEntries_returns hbw (List.finRange 128) (h.buffer (Set.subset_insert p buf)) hp
    (Set.mem_insert p buf) hrange (fun j _ => hchild j) hbase htables hgoal).mono fun r σ' h' => ?_
  obtain ⟨t', hg, hext, htab, hcount, hle, hok, hfail⟩ := h'
  have hsave := hg.save hbw.stable (hext.tables ▸ hp) hroot
  have hbuf' : insert p buf \ {p} = buf := by
    rw [Set.insert_sdiff_of_mem buf (Set.mem_singleton p)]
    exact Set.sdiff_singleton_eq_self hbuf
  rw [hbuf', hext.sector p hp, ← htab] at hsave
  exact ⟨t', hg, hsave, hext, hcount, hle, hok, hfail⟩

/-- The index blocks after the table at `140 + 128 * i` was filled. -/
theorem tables_filled {m m' i : ℕ} (hi : i < 128) (hm : 140 + 128 * i ≤ m)
    (hle : m ≤ m') (hlt : 140 + 128 * i < m') (hmax : m' ≤ max m (140 + 128 * i + 128)) :
    insert (Slot.table ⟨i, hi⟩) (insert .doubly (tables m)) = insert .doubly (tables m') := by
  ext s
  simp only [Finset.mem_insert, mem_tables]
  cases s with
  | root => simp [Slot.Open]
  | indirect =>
    have : 12 < m ↔ 12 < m' := by omega
    simp [Slot.Open, this]
  | doubly => simp
  | table k =>
    have hk : k = ⟨i, hi⟩ ↔ k.val = i := Fin.ext_iff
    simp only [Slot.table.injEq, hk, reduceCtorEq, false_or, Slot.Open]
    omega
  | data b => simp [Slot.Open]

/-- **The loop over the doubly indirect block.**  Table `i` holds the blocks from
`140 + 128 * i` on; when the loop gets there the tables before it are full. -/
theorem fillTables_returns (hbw : BitmapWrites bitmapWrite own inv) {blocks goal : ℕ}
    (hdoubly : .doubly ∈ buf) (htab : ∀ k, .table k ∉ buf) (is : List (Fin 128)) :
    ∀ {i n allocated : ℕ} {σ : FsState} {t : Tree}, Growing own inv σ₀ t₀ buf σ t →
      t.tables = insert .doubly (tables t.blocks) → is.map Fin.val = List.range' i n →
      (goal ≤ t.blocks ∨ 140 + 128 * i ≤ t.blocks) → t.blocks + blocks = goal + allocated →
      Returns (fillTables bitmapWrite blocks is (t.table .doubly) allocated) σ fun r σ' =>
        ∃ t' buf', Growing own inv σ₀ t₀ buf' σ' t' ∧ r.2.1 = t'.table .doubly ∧
          t.blocks ≤ t'.blocks ∧ t'.table .root = t.table .root ∧
          (∀ s ∈ t.tables, t'.sector s = t.sector s) ∧ t.tables ⊆ t'.tables ∧
          (r.1 = true → buf' = buf ∧ t'.tables = insert .doubly (tables t'.blocks) ∧
            min goal (140 + 128 * (i + n)) ≤ t'.blocks ∧
            t'.blocks ≤ max t.blocks (min goal (140 + 128 * (i + n)))) ∧
          (r.1 = false → t'.blocks < goal ∧ t'.tables ⊆ insert .doubly (tables goal) ∧
            (σ₀.Memory → σ'.freeMap.free = ∅)) := by
  induction is with
  | nil =>
    intro i n allocated σ t h htables his hfull hgoal
    have hn : 0 = n := by simpa using congrArg List.length his
    rw [fillTables, returns_pure]
    refine ⟨t, buf, h, rfl, le_rfl, rfl, fun _ _ => rfl, Finset.Subset.refl _,
      fun _ => ⟨rfl, htables, ?_, le_max_left _ _⟩, by simp⟩
    omega
  | cons a is ih =>
    intro i n allocated σ t h htables his hfull hgoal
    obtain ⟨m, rfl, ha, his'⟩ := map_val_cons his
    have hi : i < 128 := ha ▸ a.isLt
    obtain rfl : a = ⟨i, hi⟩ := Fin.ext ha
    rw [fillTables]
    split_ifs with hmore
    · have hbase : 140 + 128 * i ≤ t.blocks := by omega
      have hmem : Slot.doubly ∈ t.tables := by
        rw [htables]
        exact Finset.mem_insert_self _ _
      have hclosed : Slot.table ⟨i, hi⟩ ∉ t.tables → ∀ j d, Slot.child (.table ⟨i, hi⟩) j = some d →
          d ∉ t.live := by
        intro hno j d hd
        obtain rfl := Option.some.inj hd
        rw [Tree.mem_live_data (h.placed.noData _)]
        have hnot : ¬140 + 128 * i < t.blocks := fun hlt => hno (by
          rw [htables]
          exact Finset.mem_insert_of_mem (mem_tables.2 hlt))
        show ¬140 + 128 * i + j.val < t.blocks
        omega
      refine (openTable_returns hbw h hmem hdoubly (i := ⟨i, hi⟩) rfl (by simp) hclosed).seq
        fun sector σ₁ h₁ => ?_
      obtain ⟨rfl, h₁, hnone⟩ | ⟨v, t₁, rfl, h₁, hopen⟩ := h₁
      · dsimp only
        rw [returns_pure]
        refine ⟨t, buf, h₁, rfl, le_rfl, rfl, fun _ _ => rfl, Finset.Subset.refl _, by simp,
          fun _ => ⟨by omega, ?_, hnone⟩⟩
        rw [htables]
        refine Finset.insert_subset_insert _ fun s hs => ?_
        rw [mem_tables] at hs ⊢
        cases s <;> simp only [Slot.Open] at hs ⊢ <;> omega
      · have htab₁ : Slot.table ⟨i, hi⟩ ∈ t₁.tables := by
          rw [hopen.tables]
          exact Finset.mem_insert_self _ _
        dsimp only [readSector]
        rw [bind_assoc, returns_get_bind, pure_bind, ← hopen.sector_self]
        have hgoal₁ : t₁.blocks + blocks = goal + allocated := by rw [hopen.blocks, hgoal]
        have htables₁ : ∀ b, t₁.blocks ≤ b → b < 140 + 128 * i + 128 → t₁.tables = tables (b + 1) := by
          intro b hb hb'
          rw [hopen.blocks] at hb
          have hdbl : Slot.doubly ∈ tables (b + 1) := mem_tables.2 (by show 140 < b + 1; omega)
          rw [hopen.tables, htables, ← Finset.insert_eq_of_mem hdbl]
          exact tables_filled hi hbase (by omega) (by omega) (by omega)
        refine (fillTable_returns hbw h₁ htab₁ (by simp) (htab _) (fun j => rfl)
          (by rw [hopen.blocks]; exact hbase) htables₁ hgoal₁).seq fun r σ₂ h₂ => ?_
        obtain ⟨t₂, hg₂, hsave, hext, hcount, hle, hok, hfail⟩ := h₂
        have hblocks := hopen.blocks
        have hmono := hext.blocks
        have hdbl : t₂.table .doubly = (t.table .doubly).setWord ⟨i, hi⟩ v := by
          rw [hext.table _ (by simp), hopen.table_self]
        have hroot₂ : t₂.table .root = t.table .root := by
          rw [hext.table _ (by simp), hopen.table _ h.placed.root (by simp)]
        have hsector₂ : ∀ s ∈ t.tables, t₂.sector s = t.sector s := fun s hs => by
          rw [hext.sector s (by rw [hopen.tables]; exact Finset.mem_insert_of_mem hs),
            hopen.sector s hs]
        have hsub₂ : t.tables ⊆ t₂.tables := by
          rw [hext.tables, hopen.tables]
          exact Finset.subset_insert _ _
        obtain ⟨ok, indirect, allocated₂⟩ := r
        dsimp only at hcount hok hfail hsave ⊢
        rw [hopen.sector_self] at hsave ⊢
        cases ok with
        | true =>
          rw [if_pos rfl]
          have hfilled := hok rfl
          have htables₂ : t₂.tables = insert .doubly (tables t₂.blocks) := by
            rw [hext.tables, hopen.tables, htables]
            exact tables_filled hi hbase (by omega) (by omega) (by omega)
          dsimp only [writeSector]
          rw [returns_modify_bind, ← hdbl]
          refine (ih (i := i + 1) (n := m) hsave htables₂ his' (by omega) hcount).mono
            fun r σ₃ h₃ => ?_
          obtain ⟨t₃, buf', hg₃, htab₃, hle₃, hroot₃, hsector₃, hsub₃, hok₃, hfail₃⟩ := h₃
          refine ⟨t₃, buf', hg₃, htab₃, by omega, hroot₃.trans hroot₂, fun s hs => ?_,
            hsub₂.trans hsub₃, fun hr => ?_, hfail₃⟩
          · rw [hsector₃ s (hsub₂ hs), hsector₂ s hs]
          · obtain ⟨hbuf, htables₃, hge, hmax⟩ := hok₃ hr
            exact ⟨hbuf, htables₃, by omega, by omega⟩
        | false =>
          rw [if_neg (by simp), returns_pure]
          obtain ⟨hlt, hnone⟩ := hfail rfl
          refine ⟨t₂, _, hg₂, hdbl.symm, by omega, hroot₂, hsector₂, hsub₂, by simp,
            fun _ => ⟨hlt, ?_, hnone⟩⟩
          rw [hext.tables, hopen.tables, htables]
          intro s hs
          simp only [Finset.mem_insert, mem_tables] at hs ⊢
          rcases hs with rfl | rfl | hs
          · right
            show 140 + 128 * i < goal
            omega
          · exact .inl rfl
          · right
            cases s <;> simp only [Slot.Open] at hs ⊢ <;> omega
    · rw [returns_pure]
      refine ⟨t, buf, h, rfl, le_rfl, rfl, fun _ _ => rfl, Finset.Subset.refl _,
        fun _ => ⟨rfl, htables, ?_, le_max_left _ _⟩, by simp⟩
      omega

/-! ### `allocate_blocks` -/

/-- What a part of `allocate_blocks` leaves that goes on to `goal` blocks but not
past `limit`: it gets there, or, with memory, the free map is exhausted. -/
structure Stage (own : Set BlockSector) (inv : FsState → Prop) (σ₀ : FsState) (t₀ : Tree)
    (goal limit : ℕ) (t : Tree) (ok : Bool) (d : Sector) (σ' : FsState) (t' : Tree)
    (buf' : Set Slot) : Prop where
  growing : Growing own inv σ₀ t₀ buf' σ' t'
  root : d = t'.table .root
  blocks : t.blocks ≤ t'.blocks
  done : ok = true → buf' = {.root} ∧ t'.tables = tables t'.blocks ∧
    min goal limit ≤ t'.blocks ∧ t'.blocks ≤ max t.blocks (min goal limit)
  full : ok = false → t'.blocks < goal ∧ t'.tables ⊆ tables goal ∧
    (σ₀.Memory → σ'.freeMap.free = ∅)

/-- A part of `allocate_blocks` as one that goes further or began earlier. -/
theorem Stage.weaken {goal limit limit' : ℕ} {t t₁ t' : Tree} {ok : Bool} {d : Sector}
    {σ' : FsState} {buf' : Set Slot} (hs : Stage own inv σ₀ t₀ goal limit t₁ ok d σ' t' buf')
    (hle : t.blocks ≤ t₁.blocks) (hmax : t₁.blocks ≤ max t.blocks (min goal limit'))
    (hlimit : limit ≤ limit') (hreached : ok = true → goal ≤ t'.blocks ∨ limit = limit') :
    Stage own inv σ₀ t₀ goal limit' t ok d σ' t' buf' := by
  refine ⟨hs.growing, hs.root, hle.trans hs.blocks, fun hr => ?_, hs.full⟩
  obtain ⟨hbuf, htab, hge, hmax'⟩ := hs.done hr
  have := hreached hr
  exact ⟨hbuf, htab, by omega, by omega⟩

/-- With memory and sectors for all the nodes it succeeds. -/
theorem Stage.ok_of_enough {goal limit : ℕ} {t t' : Tree} {ok : Bool} {d : Sector} {σ' : FsState}
    {buf' : Set Slot} (hs : Stage own inv σ₀ t₀ goal limit t ok d σ' t' buf') (hmem : σ₀.Memory)
    (hfree : slots goal ≤ σ₀.freeMap.free.card + t₀.used) : ok = true := by
  by_contra hno
  rw [Bool.not_eq_true] at hno
  obtain ⟨hlt, hsub, hfull⟩ := hs.full hno
  have hcount := hs.growing.count
  have hcard := Finset.card_le_card hsub
  rw [hfull hmem, Finset.card_empty] at hcount
  simp only [slots, Tree.used] at hfree hcount
  omega

/-- The direct part. -/
theorem allocateDirect_returns (hbw : BitmapWrites bitmapWrite own inv) {σ : FsState} {t : Tree}
    (h : Growing own inv σ₀ t₀ {.root} σ t) (htables : t.tables = tables t.blocks)
    {blocks goal : ℕ} (hgoal : t.blocks + blocks = goal) :
    Returns (fillEntries bitmapWrite blocks directIndices (t.table .root) 0) σ fun r σ' =>
      ∃ t' buf', Stage own inv σ₀ t₀ goal 12 t r.1 r.2.1 σ' t' buf' ∧
        t'.blocks + blocks = goal + r.2.2 := by
  have hopen : ∀ b, t.blocks ≤ b → b < 0 + 0 + 12 → t.tables = tables (b + 1) := by
    intro b hb hb'
    rw [htables]
    ext s
    rw [mem_tables, mem_tables]
    cases s <;> simp only [Slot.Open] <;> omega
  refine (fillEntries_returns hbw directIndices h h.placed.root rfl directIndices_range
    directIndices_child (Nat.zero_le _) hopen (by omega : t.blocks + blocks = goal + 0)).mono fun r σ' h' => ?_
  obtain ⟨t', hg, hext, htab, hcount, hle, hok, hfail⟩ := h'
  have hmono := hext.blocks
  have hsame : 12 < t.blocks → t'.blocks = t.blocks := fun _ => by omega
  refine ⟨t', {.root}, ⟨hg, htab, hmono, fun hr => ⟨rfl, ?_, ?_, ?_⟩, fun hr => ⟨(hfail hr).1, ?_,
    (hfail hr).2⟩⟩, hcount⟩
  · rw [hext.tables, htables]
    rcases Nat.lt_or_ge 12 t.blocks with hlt | hge
    · rw [hsame hlt]
    · ext s
      rw [mem_tables, mem_tables]
      cases s <;> simp only [Slot.Open] <;> omega
  · have := hok hr
    omega
  · omega
  · rw [hext.tables, htables]
    exact tables_subset (by have := (hfail hr).1; omega)

/-- The indirect part. -/
theorem allocateIndirect_returns (hbw : BitmapWrites bitmapWrite own inv) {σ : FsState} {t : Tree}
    (h : Growing own inv σ₀ t₀ {.root} σ t) (htables : t.tables = tables t.blocks)
    {blocks goal allocated : ℕ} (hbase : 12 ≤ t.blocks) (hmore : t.blocks < goal)
    (hgoal : t.blocks + blocks = goal + allocated) :
    Returns (allocateIndirect bitmapWrite blocks (t.table .root) allocated) σ fun r σ' =>
      ∃ t' buf', Stage own inv σ₀ t₀ goal 140 t r.1 r.2.1 σ' t' buf' ∧
        (r.1 = true → t'.blocks + blocks = goal + r.2.2) := by
  have hclosed : Slot.indirect ∉ t.tables → ∀ j d, Slot.indirect.child j = some d →
      d ∉ t.live := by
    intro hno j d hd
    obtain rfl := Option.some.inj hd
    rw [Tree.mem_live_data (h.placed.noData _)]
    have hnot : ¬12 < t.blocks := fun hlt => hno (by
      rw [htables]
      exact mem_tables.2 hlt)
    omega
  unfold allocateIndirect
  refine (openTable_returns hbw h h.placed.root rfl (i := 12) (by simp [Slot.child]) (by simp)
    hclosed).seq fun sector σ₁ h₁ => ?_
  obtain ⟨rfl, h₁, hnone⟩ | ⟨v, t₁, rfl, h₁, hopen⟩ := h₁
  · dsimp only
    rw [returns_pure]
    refine ⟨t, _, ⟨h₁, rfl, le_rfl, by simp, fun _ => ⟨hmore, ?_, hnone⟩⟩, by simp⟩
    rw [htables]
    exact tables_subset hmore.le
  · have hind : Slot.indirect ∈ t₁.tables := by
      rw [hopen.tables]
      exact Finset.mem_insert_self _ _
    dsimp only [readSector]
    rw [bind_assoc, returns_get_bind, pure_bind, ← hopen.sector_self]
    have hgoal₁ : t₁.blocks + blocks = goal + allocated := by rw [hopen.blocks, hgoal]
    have htables₁ : ∀ b, t₁.blocks ≤ b → b < 12 + 128 → t₁.tables = tables (b + 1) := by
      intro b hb hb'
      rw [hopen.blocks] at hb
      rw [hopen.tables, htables]
      ext s
      simp only [Finset.mem_insert, mem_tables]
      cases s <;> simp only [Slot.Open, reduceCtorEq, false_or, true_or, true_iff] <;> omega
    refine (fillTable_returns hbw h₁ hind (by simp) (by simp) (fun j => rfl)
      (by rw [hopen.blocks]; exact hbase) htables₁ hgoal₁).seq fun r σ₂ h₂ => ?_
    obtain ⟨t₂, -, hsave, hext, hcount, hle, hok, hfail⟩ := h₂
    have hblocks := hopen.blocks
    have hmono := hext.blocks
    have hroot : t₂.table .root = (t.table .root).setIndirect v := by
      rw [hext.table _ (by simp), hopen.table_self]
      rfl
    have htables₂ : t₂.tables = insert .indirect (tables t.blocks) := by
      rw [hext.tables, hopen.tables, htables]
    obtain ⟨ok, indirect, allocated₂⟩ := r
    dsimp only [writeSector] at hcount hok hfail hsave ⊢
    rw [returns_modify_bind, returns_pure]
    refine ⟨t₂, _, ⟨hsave, by rw [hroot, hopen.sector_self], by omega,
      fun hr => ⟨rfl, ?_, ?_, ?_⟩, fun hr => ⟨(hfail hr).1, ?_, (hfail hr).2⟩⟩, fun _ => hcount⟩
    · have := hok hr
      rw [htables₂]
      ext s
      simp only [Finset.mem_insert, mem_tables]
      cases s <;> simp only [Slot.Open, reduceCtorEq, false_or, true_or, true_iff] <;> omega
    · have := hok hr
      omega
    · omega
    · have := (hfail hr).1
      rw [htables₂]
      intro s hs
      simp only [Finset.mem_insert, mem_tables] at hs ⊢
      rcases hs with rfl | hs
      · show 12 < goal
        omega
      · cases s <;> simp only [Slot.Open] at hs ⊢ <;> omega

/-- The doubly indirect part. -/
theorem allocateDoubly_returns (hbw : BitmapWrites bitmapWrite own inv) {σ : FsState} {t : Tree}
    (h : Growing own inv σ₀ t₀ {.root} σ t) (htables : t.tables = tables t.blocks)
    {blocks goal allocated : ℕ} (hbase : 140 ≤ t.blocks) (hmore : t.blocks < goal)
    (hgoal : t.blocks + blocks = goal + allocated) :
    Returns (allocateDoubly bitmapWrite blocks (t.table .root) allocated) σ fun r σ' =>
      ∃ t' buf', Stage own inv σ₀ t₀ goal capacity t r.1 r.2.1 σ' t' buf' := by
  have hclosed : Slot.doubly ∉ t.tables → ∀ j d, Slot.doubly.child j = some d → d ∉ t.live := by
    intro hno j d hd
    obtain rfl := Option.some.inj hd
    rw [Tree.mem_live_of_not_data (by simp), htables, mem_tables]
    have hnot : ¬140 < t.blocks := fun hlt => hno (by
      rw [htables]
      exact mem_tables.2 hlt)
    show ¬140 + 128 * j.val < t.blocks
    omega
  unfold allocateDoubly
  refine (openTable_returns hbw h h.placed.root rfl (i := 13) (by simp [Slot.child]) (by simp)
    hclosed).seq fun sector σ₁ h₁ => ?_
  obtain ⟨rfl, h₁, hnone⟩ | ⟨v, t₁, rfl, h₁, hopen⟩ := h₁
  · dsimp only
    rw [returns_pure]
    refine ⟨t, _, ⟨h₁, rfl, le_rfl, by simp, fun _ => ⟨hmore, ?_, hnone⟩⟩⟩
    rw [htables]
    exact tables_subset hmore.le
  · have hdbl : Slot.doubly ∈ t₁.tables := by
      rw [hopen.tables]
      exact Finset.mem_insert_self _ _
    have htables₁ : t₁.tables = insert .doubly (tables t₁.blocks) := by
      rw [hopen.tables, htables, hopen.blocks]
    have hrange : (List.finRange 128).map Fin.val = List.range' 0 128 := by
      rw [List.map_coe_finRange_eq_range, List.range_eq_range']
    have hblocks := hopen.blocks
    dsimp only [readSector]
    rw [bind_assoc, returns_get_bind, pure_bind, ← hopen.sector_self,
      h₁.placed.stored _ hdbl (by simp)]
    have hmem : Slot.doubly ∈ (insert .doubly {.root} : Set Slot) := Set.mem_insert _ _
    refine (fillTables_returns hbw hmem (fun k => by simp) (List.finRange 128) (h₁.buffer (Set.subset_insert _ _)) htables₁ hrange
      (.inr (by omega)) (by omega : t₁.blocks + blocks = goal + allocated)).seq fun r σ₂ h₂ => ?_
    obtain ⟨t₂, buf', hg, htab, hmono, hroot₂, hsector₂, hsub₂, hok, hfail⟩ := h₂
    have hsave := hg.save hbw.stable (hsub₂ hdbl) (by simp)
    rw [hsector₂ _ hdbl, ← htab] at hsave
    have hroot : t₂.table .root = (t.table .root).setDoublyIndirect v := by
      rw [hroot₂, hopen.table_self]
      rfl
    obtain ⟨ok, doubly, allocated₂⟩ := r
    dsimp only [writeSector] at hok hfail hsave ⊢
    rw [returns_modify_bind, returns_pure]
    refine ⟨t₂, _, ⟨hsave, by rw [hroot, hopen.sector_self], by omega, fun hr => ?_, fun hr => ?_⟩⟩
    · obtain ⟨rfl, htables₂, hge, hle⟩ := hok hr
      refine ⟨?_, ?_, ?_, ?_⟩
      · rw [Set.insert_sdiff_of_mem _ (Set.mem_singleton _)]
        exact Set.sdiff_singleton_eq_self (by simp)
      · have hmem : Slot.doubly ∈ tables t₂.blocks := mem_tables.2 (by show 140 < _; omega)
        rw [htables₂, Finset.insert_eq_of_mem hmem]
      · unfold capacity
        omega
      · unfold capacity
        omega
    · obtain ⟨hlt, hsub, hnone⟩ := hfail hr
      have hmem : Slot.doubly ∈ tables goal := mem_tables.2 (by show 140 < _; omega)
      rw [Finset.insert_eq_of_mem hmem] at hsub
      exact ⟨hlt, hsub, hnone⟩

/-- **`allocate_blocks`.**  From a tree of `t.blocks` blocks it grows to
`t.blocks + blocks`, as far as the index tree has entries, and reports success;
or an allocation fails on the way, with fewer index blocks allocated than
that would take, and it reports failure. -/
theorem allocateBlocksWith_returns (hbw : BitmapWrites bitmapWrite own inv) {σ : FsState} {t : Tree}
    (h : Growing own inv σ₀ t₀ {.root} σ t) (htables : t.tables = tables t.blocks)
    (hcap : t.blocks ≤ capacity) (blocks : ℕ) :
    Returns (allocateBlocksWith bitmapWrite (t.table .root) blocks) σ fun r σ' =>
      ∃ t' buf', Stage own inv σ₀ t₀ (t.blocks + blocks) capacity t r.1 r.2 σ' t' buf' := by
  have hcapacity : capacity = 16524 := rfl
  unfold allocateBlocksWith
  refine (allocateDirect_returns hbw h htables rfl).seq fun r σ₁ h₁ => ?_
  obtain ⟨t₁, buf₁, hs₁, hcount₁⟩ := h₁
  obtain ⟨ok₁, d₁, allocated₁⟩ := r
  dsimp only at hs₁ hcount₁ ⊢
  cases ok₁ with
  | false =>
    rw [if_pos rfl, returns_pure]
    exact ⟨t₁, buf₁, hs₁.weaken le_rfl (le_max_left _ _) (by decide) (by simp)⟩
  | true =>
    obtain ⟨rfl, htables₁, hge₁, hle₁⟩ := hs₁.done rfl
    have hmono₁ := hs₁.blocks
    rw [if_neg (by simp)]
    split_ifs with hmore₁
    · rw [hs₁.root]
      refine (allocateIndirect_returns hbw hs₁.growing htables₁ (by omega) (by omega) hcount₁).seq
        fun r σ₂ h₂ => ?_
      obtain ⟨t₂, buf₂, hs₂, hcount₂⟩ := h₂
      obtain ⟨ok₂, d₂, allocated₂⟩ := r
      dsimp only at hs₂ hcount₂ ⊢
      cases ok₂ with
      | false =>
        rw [if_pos rfl, returns_pure]
        exact ⟨t₂, buf₂, hs₂.weaken hmono₁ (by omega) (by decide) (by simp)⟩
      | true =>
        obtain ⟨rfl, htables₂, hge₂, hle₂⟩ := hs₂.done rfl
        have hmono₂ := hs₂.blocks
        have hcount := hcount₂ rfl
        rw [if_neg (by simp)]
        split_ifs with hmore₂
        · rw [hs₂.root]
          refine (allocateDoubly_returns hbw hs₂.growing htables₂ (by omega) (by omega) hcount).seq
            fun r σ₃ h₃ => ?_
          obtain ⟨t₃, buf₃, hs₃⟩ := h₃
          rw [returns_pure]
          exact ⟨t₃, buf₃, hs₃.weaken (hmono₁.trans hmono₂) (by omega) le_rfl fun _ => .inr rfl⟩
        · rw [returns_pure]
          refine ⟨t₂, _, hs₂.weaken hmono₁ (by omega) (by decide) fun _ => .inl ?_⟩
          omega
    · rw [returns_pure]
      refine ⟨t₁, _, hs₁.weaken le_rfl (le_max_left _ _) (by decide) fun _ => .inl ?_⟩
      omega

end Loops

end Filesys
end CS162

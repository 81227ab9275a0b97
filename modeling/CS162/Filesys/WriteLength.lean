/-
# The length after a write

`projects1-3/src/filesys/inode.c`, lines 619-685 and 705-740.

A call of `inode_write_at` that has to make the file longer does so before it
copies a byte.  Where nothing is copied after that, the length has changed all
the same.  Where there are no sectors to grow by, `free_blocks` takes back as
many blocks as were asked for from the front of the file, and the index blocks
it clears are written to the disk.  What is left is a file whose length has
changed only by the bytes written (`inodeWriteAt_lawful`).
-/

import CS162.Filesys.FailedGrowth

namespace CS162
namespace Filesys

open CS162.Basis

/-- The byte at offset `pos` of the inode at `root`; none where its index has no block. -/
def byteAt (σ : FsState) (root : BlockSector) (pos : ℕ) : Option UInt8 :=
  if nodeAt σ root (.data (pos / 512)) = 0 then none
  else some (entry (fun b => σ.store (nodeAt σ root (.data b))) pos)

/-- What a call of `inode_write_at` at `offset` that returned `n` should have done to the inode at
`root`: the length has changed only if bytes were written behind its end, and of the bytes in front
of the old end only those written have changed. -/
structure LengthLaw (σ : FsState) (root : BlockSector) (offset n : ℕ) (σ' : FsState) : Prop where
  length : (σ'.store root).length =
    if n = 0 then (σ.store root).length else max (σ.store root).length ((offset + n : ℕ) : ℤ)
  keep : ∀ pos : ℕ, (pos : ℤ) < (σ.store root).length → pos < offset ∨ offset + n ≤ pos →
    byteAt σ' root pos = byteAt σ root pos

/-- The data blocks of a file of `len` bytes. -/
def blocksOf (len : ℕ) : ℕ := min (bytesToSectors len) capacity

/-- Once `calloc` has been met, there are the sectors for a file of `len` bytes to grow to `n`. -/
def Grows (σ : FsState) (len n : ℕ) : Prop :=
  slots (blocksOf n) ≤ slots (blocksOf len) + supply σ.shift

/-- What `free_blocks` takes back after a call for `k` blocks, made for a file of `m`, has failed
leaves the index blocks of the file as they are. -/
def SparesIndex (σ : FsState) (m k : ℕ) : Prop :=
  k ≤ 12 ∨ m ≤ 12 ∨ m ≤ 140 ∧ (140 < k ∨ m + supply σ.shift < k)

/-! ### How many sectors it takes -/

/-- The nodes of a file of `m` blocks. -/
def nodesOf (m : ℕ) : Finset Slot := tables m ∪ (Finset.range m).image Slot.data

theorem card_nodesOf (m : ℕ) : (nodesOf m).card = slots m := by
  have hinj : Function.Injective Slot.data := fun _ _ he => Slot.data.inj he
  unfold nodesOf slots
  rw [Finset.card_union_of_disjoint, Finset.card_image_of_injective _ hinj, Finset.card_range,
    Nat.add_comm]
  rw [Finset.disjoint_left]
  intro s hs hs'
  obtain ⟨b, -, rfl⟩ := Finset.mem_image.1 hs'
  exact mem_tables.1 hs

theorem mem_nodesOf {m : ℕ} {s : Slot} : s ∈ nodesOf m ↔ s = .root ∨ s.first < m := by
  unfold nodesOf
  rw [Finset.mem_union, mem_tables, Finset.mem_image]
  cases s <;> simp [Slot.Open, Slot.first]

theorem slots_mono {m m' : ℕ} (h : m ≤ m') : slots m + (m' - m) ≤ slots m' := by
  have := Finset.card_le_card (tables_subset h)
  unfold slots
  omega

/-- With the indirect block and no doubly indirect one. -/
theorem slots_indirect {m : ℕ} (h : 12 < m) (h' : m ≤ 140) : slots m = m + 2 := by
  have htables : tables m = {.root, .indirect} := by
    ext s
    rw [mem_tables, Finset.mem_insert, Finset.mem_singleton]
    cases s <;> simp [Slot.Open] <;> omega
  rw [slots, htables]
  rfl

section Counts

variable {fm : Tree} {held : Option InodePtr} {own : Set BlockSector} {inv : FsState → Prop}
  {σ σ₀ σ' : FsState} {t : Tree} {len n f a : ℕ} {ι : Index} {buf : Set Slot} {ok : Bool}

/-- The nodes of a file that growth has built. -/
theorem Built.card_nodes (h : Built fm σ t len) :
    (indexOf σ.store (t.sector .root) (σ.store (t.sector .root))).nodes.card = slots t.blocks := by
  have heq : (indexOf σ.store (t.sector .root) (σ.store (t.sector .root))).nodes =
      nodesOf t.blocks := by
    ext s
    rw [Index.nodes, Finset.mem_filter, mem_nodesOf]
    by_cases hs : s = .root
    · subst hs
      exact iff_of_true ⟨Slot.mem_all (by simp), Index.has_root _⟩ (.inl rfl)
    · rw [h.has, h.mem_live hs]
      refine ⟨fun hlt => .inr hlt.2, fun hor => ?_⟩
      have hlt := hor.resolve_left hs
      refine ⟨Slot.mem_all ?_, hlt⟩
      rintro b rfl
      exact hlt.trans_le h.capacity
  rw [heq, card_nodesOf]

/-- **The sectors that growth takes**: those of the nodes of a file of `f` blocks. -/
theorem Filling.slots_le (h : Filling own inv σ₀ (indexOf σ.store (t.sector .root)
    (σ.store (t.sector .root))) buf f a σ' ι) (hbuilt : Built fm σ t len) :
    slots f ≤ slots t.blocks + a := by
  rw [← hbuilt.card_nodes, ← h.count, ← card_nodesOf]
  refine Finset.card_le_card fun s hs => ?_
  have hhas : ι.Has s := by
    rcases mem_nodesOf.1 hs with rfl | hlt
    · exact ι.has_root
    · exact h.has_of_first hlt
  refine Finset.mem_filter.2 ⟨Slot.mem_all ?_, hhas⟩
  rintro b rfl
  by_contra hge
  exact Index.has_data.1 hhas (h.indexed.bounded (not_lt.1 hge))

/-- Where it stops short, there are fewer of them than a file of one more block has. -/
theorem Filling.lt_slots (h : Filling own inv σ₀ (indexOf σ.store (t.sector .root)
    (σ.store (t.sector .root))) buf f a σ' ι) (hbuilt : Built fm σ t len) (hf : t.blocks ≤ f) :
    slots t.blocks + a < slots (f + 1) := by
  rw [← hbuilt.card_nodes, ← h.count, ← card_nodesOf]
  refine Finset.card_lt_card ((Finset.ssubset_iff_of_subset fun s hs => ?_).2
    ⟨.data f, mem_nodesOf.2 (.inr (Nat.lt_succ_self f)), fun hmem => ?_⟩)
  · rw [mem_nodesOf]
    refine or_iff_not_imp_left.2 fun hroot => Nat.lt_succ_of_le ?_
    by_cases hs₀ : (indexOf σ.store (t.sector .root) (σ.store (t.sector .root))).Has s
    · exact ((hbuilt.mem_live hroot).1 (hbuilt.has.1 hs₀)).le.trans hf
    · exact h.tight (Finset.mem_filter.1 hs).2 hs₀
  · have hhas := (Finset.mem_filter.1 hmem).2
    rw [Index.has_data, h.rest f le_rfl, ← Index.has_data, hbuilt.has,
      hbuilt.mem_live (by simp)] at hhas
    exact absurd hhas (not_lt.2 hf)

theorem Filling.le_supply {ι₀ : Index} (h : Filling own inv σ₀ ι₀ buf f a σ' ι) : a ≤ supply σ₀ :=
  Nat.le_findGreatest (h.free ▸ Nat.le_add_left a _) h.granted

theorem Built.card_empties (h : Built fm σ t len) :
    ((indexOf σ.store (t.sector .root) (σ.store (t.sector .root))).empties f).card =
      f - t.blocks := by
  have hsum := Finset.card_filter_add_card_filter_not (s := Finset.range f) fun b =>
    (indexOf σ.store (t.sector .root) (σ.store (t.sector .root))).sector (.data b) = 0
  have hfilled := h.card_filled (f := f)
  rw [Finset.card_range] at hsum
  change _ + ((indexOf σ.store (t.sector .root) (σ.store (t.sector .root))).filled f).card = f at hsum
  rw [hfilled] at hsum
  change ((indexOf σ.store (t.sector .root) (σ.store (t.sector .root))).empties f).card + _ = f at hsum
  omega

/-- **Growth succeeds where there are the sectors for it.** -/
theorem grows_iff (huse : InUse fm held σ) (h : Built fm σ t len) (hmem : σ.memory 0 = true)
    (hle : len ≤ n) (hn : n < 2 ^ 31)
    (hrun : (inodeResize held (t.sector .root) n).run σ = some (ok, σ')) :
    Grows σ len n ↔ ok = true := by
  have hblocks : t.blocks = blocksOf len := h.upTo
  have hmono := bytesToSectors_mono hle hn
  unfold Grows
  rw [← hblocks]
  cases ok with
  | true =>
    refine iff_of_true ?_ rfl
    rcases hmono.lt_or_eq with hmore | hsame
    · obtain ⟨f, a, ι, σ₁, hfill, hend, -⟩ := inodeResize_fills huse h hmore true σ' hrun rfl
      rw [h.card_empties] at hend
      have hreach : blocksOf n ≤ f := by
        unfold blocksOf at hblocks ⊢
        omega
      have hslots := slots_mono hreach
      have hneed := hfill.slots_le h
      have hhave := hfill.le_supply
      omega
    · rw [hblocks]
      unfold blocksOf
      rw [hsame]
      exact Nat.le_add_right _ _
  | false =>
    refine iff_of_false ?_ (by simp)
    obtain ⟨hmore, allocated, f, a, ι, d, σ₁, freed, f', g, ι', d', hback⟩ :=
      (inodeResize_fails huse h hmem n).of_run hrun rfl
    obtain ⟨buf, hfill, -⟩ := hback.fills.filling
    obtain ⟨hfew, hcap, hzero, hshort⟩ := hback.fills.stops.failed rfl
    have hge : t.blocks ≤ f := by
      by_contra hlt
      exact (h.nodeAt_ne_zero (s := .data f) (by simp)).2 (not_le.1 hlt) hzero
    rw [hback.fills.stops.count, h.card_empties] at hfew
    have hlen : t.blocks = bytesToSectors len :=
      hblocks.trans (min_eq_left (le_of_not_gt fun hgt => by
        rw [hblocks, blocksOf, min_eq_right hgt.le] at hge
        exact absurd hcap (not_lt.2 hge)))
    have hreach : f + 1 ≤ blocksOf n := le_min (by omega) hcap
    have hslots := slots_mono hreach
    have hneed := hfill.lt_slots h hge
    rw [hfill.supply_eq hshort]
    omega

end Counts

/-! ### Growth that fails -/

/-- The index blocks but the inode begin with block `12`. -/
theorem Slot.le_first {s : Slot} (hst : s.IsTable) (hs : s ≠ .root) : 12 ≤ s.first := by
  cases s with
  | root => exact absurd rfl hs
  | data b => exact hst.elim
  | indirect => exact le_rfl
  | doubly => exact by decide
  | table i => exact (by norm_num : 12 ≤ 140).trans (Nat.le_add_right _ _)

/-- Of a file that has no doubly indirect block, this is the indirect block. -/
theorem Slot.eq_indirect {s : Slot} (hst : s.IsTable) (hs : s ≠ .root) (hlt : s.first < 140) :
    s = .indirect := by
  cases s with
  | root => exact absurd rfl hs
  | data b => exact hst.elim
  | indirect => rfl
  | doubly => exact absurd hlt (lt_irrefl _)
  | table i => exact absurd hlt (not_lt.2 (Nat.le_add_right _ _))

section Failing

variable {fm : Tree} {held : Option InodePtr} {σ σ₁ σ' : FsState} {t : Tree}
  {len n blocks allocated f a freed f' g : ℕ} {ι ι' : Index} {d d' : Sector}

theorem Built.byteAt_eq (h : Built fm σ t len) (pos : ℕ) : byteAt σ (t.sector .root) pos =
    if pos / 512 < t.blocks then some (t.bytes σ pos) else none := by
  have hne := h.nodeAt_ne_zero (s := .data (pos / 512)) (by simp)
  have hnode : ∀ s, nodeAt σ (t.sector .root) s = t.index.sector s := h.nodeSector_eq
  unfold byteAt
  split_ifs with hzero hblock hblock
  · exact absurd hzero (hne.2 hblock)
  · rfl
  · refine congrArg some (entry_congr (congrArg σ.store ?_))
    rw [hnode, Tree.sector_index ((h.mem_live (s := .data _) (by simp)).2 hblock)]
  · exact absurd (hne.1 hzero) hblock

theorem Laid.len_lt (h : Laid σ t len) : len < 2 ^ 31 := by
  have hlt : offOfWord ((t.table .root).word 14) < ((2 ^ 32 : ℕ) + 1 : ℤ) / 2 :=
    Int.bmod_lt (by norm_num)
  have hlen : offOfWord ((t.table .root).word 14) = len := h.length
  rw [hlen] at hlt
  norm_num at hlt
  omega

/-- A byte of a file is in one of the sectors that its length is rounded up to. -/
theorem Built.lt_bytesToSectors (h : Built fm σ t len) {pos : ℕ} (hpos : pos < len) :
    pos / 512 < bytesToSectors len := by
  have hlen := h.len_lt
  rcases Nat.lt_or_ge (len + 511) (2 ^ 31) with hlt | hge
  · rw [bytesToSectors_of_lt hlt]
    omega
  · rw [bytesToSectors_of_neg (wrap32_add_of_ge hge hlen) (by omega), if_neg (by omega)]
    omega

/-- The first byte of a block is in front of the end. -/
theorem Built.lt_len (h : Built fm σ t len) {b : ℕ} (hb : b < t.blocks) (hle : b ≤ 140) :
    512 * b < len := by
  have hlt := hb.trans_le (h.upTo.trans_le (min_le_left _ _))
  rcases Nat.lt_or_ge (len + 511) (2 ^ 31) with hlen | hge
  · rw [bytesToSectors_of_lt hlen] at hlt
    omega
  · omega

/-- Above a node there are nodes. -/
theorem nodeSector_ne_zero_of_child {store : BlockSector → Sector} {root : BlockSector} {p c : Slot}
    {i : Fin 128} (hc : p.child i = some c) (hp : p ≠ .root) (hne : nodeSector store root d c ≠ 0) :
    nodeSector store root d p ≠ 0 := by
  intro hzero
  rw [nodeSector_child hc hp, tableEntry, if_pos hzero] at hne
  exact hne rfl

/-- Nodes of an inode are found where they were if the entries that lead to them are as they
were. -/
theorem nodeSector_eq_of_entries {store store' : BlockSector → Sector} {root : BlockSector}
    (h : ∀ {p c i}, Slot.child p i = some c → p ≠ .root → nodeSector store root d c ≠ 0 →
      (store' (nodeSector store root d p)).word i = nodeSector store root d c) {s : Slot}
    (hs : nodeSector store root d s ≠ 0) :
    nodeSector store' root d s = nodeSector store root d s := by
  have hunder : ∀ {p c i}, Slot.child p i = some c → p ≠ .root → nodeSector store root d c ≠ 0 →
      nodeSector store root d p ≠ 0 ∧ (nodeSector store' root d p = nodeSector store root d p →
        nodeSector store' root d c = nodeSector store root d c) := by
    intro p c i hc hp hne
    have hpne := nodeSector_ne_zero_of_child hc hp hne
    refine ⟨hpne, fun he => ?_⟩
    rw [nodeSector_child hc hp, he, tableEntry, if_neg hpne]
    exact h hc hp hne
  have htable : ∀ i, nodeSector store root d (.table i) ≠ 0 →
      nodeSector store' root d (.table i) = nodeSector store root d (.table i) := fun i hne =>
    (hunder (p := .doubly) (i := i) rfl (by simp) hne).2 rfl
  cases s with
  | root => rfl
  | indirect => rfl
  | doubly => rfl
  | table i => exact htable i hs
  | data b =>
    rcases Nat.lt_or_ge b 12 with h₁ | h₁
    · simp only [nodeSector, h₁, dif_pos]
    rcases Nat.lt_or_ge b 140 with h₂ | h₂
    · have hchild : Slot.indirect.child ⟨b - 12, by omega⟩ = some (.data b) := by
        refine congrArg (fun n => some (Slot.data n)) ?_
        show 12 + (b - 12) = b
        omega
      exact (hunder hchild (by simp) hs).2 rfl
    · have hcap : b < capacity := by
        by_contra hge
        exact hs (nodeSector_data_of_le (not_lt.1 hge))
      unfold capacity at hcap
      have hchild : (Slot.table ⟨(b - 140) / 128, by omega⟩).child ⟨(b - 140) % 128, by omega⟩ =
          some (.data b) := by
        refine congrArg (fun n => some (Slot.data n)) ?_
        show 140 + 128 * ((b - 140) / 128) + (b - 140) % 128 = b
        omega
      obtain ⟨hne, hback⟩ := hunder hchild (by simp) hs
      exact hback (htable _ hne)

/-- Where a call that fails got to. -/
theorem GaveBack.reaches (h : GaveBack fm held σ t blocks allocated f a ι d σ₁ freed f' g ι' d' σ')
    (hbuilt : Built fm σ t len) : t.blocks ≤ f ∧ f < capacity ∧ supply σ.shift = a ∧
      slots f ≤ slots t.blocks + a ∧ slots t.blocks + a < slots (f + 1) := by
  obtain ⟨buf, hfill, -⟩ := h.fills.filling
  obtain ⟨-, hcap, hzero, hshort⟩ := h.fills.stops.failed rfl
  have hge : t.blocks ≤ f := by
    by_contra hlt
    exact (hbuilt.nodeAt_ne_zero (s := .data f) (by simp)).2 (not_le.1 hlt) hzero
  exact ⟨hge, hcap, hfill.supply_eq hshort, hfill.slots_le hbuilt, hfill.lt_slots hbuilt hge⟩

/-- What `free_blocks` finds among the first `m` data blocks: all that are there, up to the doubly
indirect block. -/
theorem GaveBack.le_filled
    (h : GaveBack fm held σ t blocks allocated f a ι d σ₁ freed f' g ι' d' σ') {m : ℕ}
    (hm : m ≤ 140) (hmf : m ≤ f) :
    m ≤ ((ι.spill (indexOf σ.store (t.sector .root) (σ.store (t.sector .root))) σ₁.store f).filled
      m).card := by
  obtain ⟨buf, hfill, -⟩ := h.fills.filling
  refine (Finset.card_range m).ge.trans (Finset.card_le_card fun b hb => ?_)
  have hlt := Finset.mem_range.1 hb
  have hstart : b < spillStart f := by
    unfold spillStart
    split_ifs <;> omega
  refine Finset.mem_filter.2 ⟨hb, ?_⟩
  rw [Index.sector_spill_data, if_neg (not_le.2 hstart)]
  exact hfill.full b (hlt.trans_le hmf)

/-- It finds no more than there are. -/
theorem GaveBack.freed_le (h : GaveBack fm held σ t blocks allocated f a ι d σ₁ freed f' g ι' d' σ')
    (hbuilt : Built fm σ t len) : freed ≤ f' ∧ freed ≤ f := by
  obtain ⟨hge, -⟩ := h.reaches hbuilt
  obtain ⟨buf, hfill, -⟩ := h.fills.filling
  rw [h.empties.frees.count]
  refine ⟨(Finset.card_filter_le _ _).trans (Finset.card_range f').le,
    (Finset.card_le_card fun b hb => ?_).trans (Finset.card_range f).le⟩
  rw [Finset.mem_range]
  by_contra hno
  have hne := (hfill.sector_spill (.inr (Finset.mem_filter.1 hb).2)).1
  rw [Index.has_data, hfill.rest b (not_lt.1 hno)] at hne
  exact absurd ((hbuilt.nodeAt_ne_zero (s := .data b) (by simp)).1 hne)
    (not_lt.2 (hge.trans (not_lt.1 hno)))

/-- **An entry of the file**, if `free_blocks` leaves its index block alone. -/
theorem GaveBack.entry_eq
    (h : GaveBack fm held σ t blocks allocated f a ι d σ₁ freed f' g ι' d' σ') {p c : Slot}
    {i : Fin 128} (hc : p.child i = some c) (hp : p ≠ .root)
    (hne : nodeAt σ (t.sector .root) c ≠ 0)
    (hquiet : f' ≤ p.first ∨ p = .indirect ∧ ¬ι'.Has .indirect) :
    (σ'.store (nodeAt σ (t.sector .root) p)).word i = nodeAt σ (t.sector .root) c := by
  obtain ⟨buf, hfill, -⟩ := h.fills.filling
  have hdisk := h.fills.disk rfl
  have hpt := Slot.isTable_of_child hc
  have hpne : nodeAt σ (t.sector .root) p ≠ 0 := nodeSector_ne_zero_of_child hc hp hne
  have hpkeep : ι.sector p = nodeAt σ (t.sector .root) p := hfill.keep (.inr hpne)
  have hckeep : ι.sector c = nodeAt σ (t.sector .root) c := hfill.keep (.inr hne)
  have hpspill : (ι.spill (indexOf σ.store (t.sector .root) (σ.store (t.sector .root)))
      σ₁.store f).sector p = nodeAt σ (t.sector .root) p := by
    rw [Index.sector_spill_of_isTable hpt, hpkeep]
  have hphas : (ι.spill (indexOf σ.store (t.sector .root) (σ.store (t.sector .root)))
      σ₁.store f).Has p := .inr (by rw [hpspill]; exact hpne)
  have hstored := hdisk.stored hpt hphas (by simpa using hp)
  have hleft := h.empties.emptying.quiet hpt hp hphas hquiet
  rw [hpspill] at hstored hleft
  rw [hleft, hstored, hdisk.shown hc hphas]
  cases c with
  | data b =>
    rw [Index.sector_spill_data]
    split_ifs
    · rfl
    · exact hckeep
  | _ => exact hckeep

/-- **Where the index blocks are spared**, the file has the bytes that it had. -/
theorem GaveBack.byteAt_eq
    (h : GaveBack fm held σ t blocks allocated f a ι d σ₁ freed f' g ι' d' σ')
    (hbuilt : Built fm σ t len) (hspare : SparesIndex σ t.blocks blocks) {pos : ℕ} (hpos : pos < len) :
    byteAt σ' (t.sector .root) pos = byteAt σ (t.sector .root) pos := by
  have hcapacity : 140 < capacity := by decide
  obtain ⟨hge, -, hsupply, hlow, -⟩ := h.reaches hbuilt
  obtain ⟨buf, hfill, -⟩ := h.fills.filling
  have hfrees := h.empties.frees
  have hinode : σ'.store (t.sector .root) = σ.store (t.sector .root) := h.store_root hbuilt
  -- what `free_blocks` leaves of the index blocks
  have hquiet : ∀ {p : Slot}, p.IsTable → p ≠ .root → p.first < t.blocks →
      f' ≤ p.first ∨ p = .indirect ∧ ¬ι'.Has .indirect := by
    intro p hpt hp hlt
    have hge₁₂ := Slot.le_first hpt hp
    unfold SparesIndex at hspare
    rw [hsupply] at hspare
    rcases hspare with hk | hm | ⟨hm, hmany⟩
    · have hfound := h.le_filled (m := 12) (by norm_num) (by omega)
      refine .inl ((le_of_not_gt fun hlt' => ?_).trans hge₁₂)
      have := hfrees.least 12 hlt'
      omega
    · omega
    · refine .inr ⟨Slot.eq_indirect hpt hp (by omega), fun hhas => ?_⟩
      rcases Nat.lt_or_ge 140 f' with hlt' | hle
      · exact (h.lost hlt').1 hhas
      · have hend : blocks ≤ freed := by
          refine hfrees.done.resolve_left ?_
          rintro rfl
          omega
        have hslots := slots_mono hge
        have hle' := h.freed_le hbuilt
        omega
  have hnode : ∀ {s : Slot}, nodeAt σ (t.sector .root) s ≠ 0 →
      nodeAt σ' (t.sector .root) s = nodeAt σ (t.sector .root) s := by
    intro s hs
    unfold nodeAt
    rw [hinode]
    refine nodeSector_eq_of_entries (fun {p c i} hc hp hne => ?_) hs
    have hpne : nodeAt σ (t.sector .root) p ≠ 0 := nodeSector_ne_zero_of_child hc hp hne
    exact h.entry_eq hc hp hne
      (hquiet (Slot.isTable_of_child hc) hp ((hbuilt.nodeAt_ne_zero hp).1 hpne))
  rcases Nat.lt_or_ge (pos / 512) t.blocks with hblock | hblock
  · have hne : nodeAt σ (t.sector .root) (.data (pos / 512)) ≠ 0 :=
      (hbuilt.nodeAt_ne_zero (by simp)).2 hblock
    have hkeep : ι.sector (.data (pos / 512)) = nodeAt σ (t.sector .root) (.data (pos / 512)) :=
      hfill.keep (.inr hne)
    have hhas : ι.Has (.data (pos / 512)) := .inr (by rw [hkeep]; exact hne)
    unfold byteAt
    rw [hnode hne, if_neg hne, if_neg hne]
    refine congrArg some (entry_congr ?_)
    rw [hnode hne, ← hkeep]
    refine h.outside (hfill.indexed.notOwn hhas) fun s hst _ hs he => ?_
    obtain rfl := hfill.indexed.distinct hs hhas he
    exact hst
  · have hend : capacity ≤ pos / 512 := by
      have hupTo := hbuilt.upTo
      have hin := hbuilt.lt_bytesToSectors hpos
      rw [hupTo] at hblock
      exact (min_le_iff.1 hblock).resolve_left (not_le.2 hin)
    unfold byteAt nodeAt
    rw [nodeSector_data_of_le hend, nodeSector_data_of_le hend]
    rfl

/-- **Where they are not**, it has lost a block. -/
theorem GaveBack.lost_block
    (h : GaveBack fm held σ t blocks allocated f a ι d σ₁ freed f' g ι' d' σ')
    (hbuilt : Built fm σ t len) (hspare : ¬SparesIndex σ t.blocks blocks) :
    ∃ b < t.blocks, b ≤ 140 ∧ nodeAt σ' (t.sector .root) (.data b) = 0 := by
  have hcapacity : 140 < capacity := by decide
  obtain ⟨hge, hcap, hsupply, hlow, hhigh⟩ := h.reaches hbuilt
  obtain ⟨buf, hfill, -⟩ := h.fills.filling
  have hfrees := h.empties.frees
  have hinode : σ'.store (t.sector .root) = σ.store (t.sector .root) := h.store_root hbuilt
  have hcount := (h.freed_le hbuilt).1
  unfold SparesIndex at hspare
  rw [hsupply] at hspare
  simp only [not_or, not_and, not_le, not_lt] at hspare
  obtain ⟨hk, hm, hrest⟩ := hspare
  have hkeep : ∀ {s : Slot}, s ≠ .root → s.first < t.blocks →
      ι.sector s = nodeAt σ (t.sector .root) s := fun hs hlt =>
    hfill.keep (hbuilt.has.2 ((hbuilt.mem_live hs).2 hlt))
  rcases Nat.lt_or_ge 140 blocks with hmore | hfew
  · -- the call went on to the doubly indirect block
    have hm' : 140 < t.blocks := by
      by_contra hle
      have := (hrest (not_lt.1 hle)).1
      omega
    have hf' : 140 < f' := by
      rcases hfrees.done with hend | hend
      · rw [hend]
        exact hcapacity
      · omega
    have hdbl := hkeep (s := .doubly) (by simp) hm'
    have hhas : ι.Has .doubly := by
      refine .inr ?_
      rw [hdbl]
      exact (hbuilt.nodeAt_ne_zero (by simp)).2 hm'
    have hlost := (h.lost hf').2 hhas
    refine ⟨140, hm', le_rfl, ?_⟩
    unfold nodeAt
    rw [hinode]
    rw [hdbl] at hlost
    exact hlost
  · -- it ended in the indirect block
    have hreach : blocks ≤ f := by
      rcases Nat.lt_or_ge f 140 with hlt | hge'
      · have hslots := slots_indirect (by omega : 12 < f + 1) (by omega)
        have hslots' := slots_indirect hm (by omega)
        have := (hrest (by omega)).2
        omega
      · omega
    have hfound := h.le_filled hfew hreach
    have hf' : f' ≤ blocks := by
      by_contra hlt
      exact absurd (hfrees.least blocks (not_le.1 hlt)) (not_lt.2 hfound)
    have hend : blocks ≤ freed := by
      refine hfrees.done.resolve_left ?_
      rintro rfl
      omega
    have hidx := h.empties.emptying.indexed
    have hind : ι'.sector .indirect = nodeAt σ (t.sector .root) .indirect :=
      (h.kept hend (by omega)).trans (hkeep (by simp) hm)
    have hne : nodeAt σ (t.sector .root) .indirect ≠ 0 := (hbuilt.nodeAt_ne_zero (by simp)).2 hm
    have hhas : ι'.Has .indirect := .inr (by rw [hind]; exact hne)
    have hstored := hidx.stored (s := .indirect) trivial hhas (by simp)
    have hchild : Slot.indirect.child 0 = some (.data 12) := rfl
    have hgone : ι'.sector (.data 12) = 0 :=
      h.empties.emptying.low 12 ((by omega : 12 < f').trans_le h.empties.emptying.le)
    refine ⟨12, hm, by norm_num, ?_⟩
    unfold nodeAt
    rw [hinode, nodeSector_child hchild (by simp), tableEntry]
    change (if nodeAt σ (t.sector .root) .indirect = 0 then 0
      else (σ'.store (nodeAt σ (t.sector .root) .indirect)).word 0) = 0
    rw [if_neg hne, ← hind, hstored, hidx.shown hchild hhas, hgone]

end Failing

/-! ### The loop -/

section Loop

variable {σ : FsState} {t : Tree} {len : ℕ}

/-- There is no sector for a byte behind the last block of the index. -/
theorem byteToSector_stuck (h : Laid σ t len) {pos : ℕ} (hpos : pos < len)
    (hcap : capacity ≤ pos / 512) : (byteToSector (t.sector .root) pos).run σ = none := by
  have hmapped : mappedAt σ (t.sector .root) pos = none := by
    rw [mappedAt_eq, indexPath_of_le hcap]
    rw [h.store_root, h.length]
    exact Int.ofNat_lt.2 hpos
  exact Option.map_eq_none_iff.1 hmapped

/-- **The loop of `inode_write_at`** in a file that has the blocks of its length, as far as the index
has entries: if it returns, it has written what fits in the length.  By induction on the number of
bytes still to be written. -/
theorem writeLoop_ensures (k : ℕ) : ∀ {σ : FsState} {buffer : List UInt8} {offset : ℕ},
    Laid σ t len → (∀ pos < len, pos / 512 < t.blocks ∨ capacity ≤ pos / 512) → buffer.length = k →
    Ensures (writeLoop (t.sector .root) buffer offset) σ fun n σ' =>
      n = min buffer.length (len - offset) ∧ Overwrote t offset (buffer.take n) σ σ' := by
  induction k using Nat.strong_induction_on with
  | _ k ih =>
    intro σ buffer offset h hupTo hk
    rw [writeLoop]
    split_ifs with hsize
    · refine ensures_pure ⟨by omega, ?_⟩
      rw [List.take_zero]
      exact .refl t offset σ
    rcases Nat.lt_or_ge offset len with hlt | hge
    · rcases hupTo offset hlt with hblock | hcap
      · refine (byteToSector_returns h fun _ => hblock).ensures.seq fun sector σ₁ h₁ => ?_
        obtain ⟨rfl, hsector⟩ := h₁
        refine (inodeLength_returns h).ensures.seq fun length σ₂ h₂ => ?_
        obtain ⟨rfl, rfl⟩ := h₂
        rw [dif_neg (by rw [chunkSize_le_zero hsize]; omega)]
        dsimp only [writeBytes]
        rw [chunkSize_toNat, hsector hlt, ensures_modify_bind]
        set chunk := min buffer.length (min (len - offset) (512 - offset % 512)) with hc
        have hlen : (buffer.take chunk).length = chunk := by
          rw [List.length_take]
          omega
        have hdrop : (buffer.drop chunk).length = buffer.length - chunk := List.length_drop ..
        have hw := Overwrote.chunk h hblock
          (by omega : offset % 512 + (buffer.take chunk).length ≤ 512)
        refine (ih (buffer.length - chunk) (by omega) (hw.laid h) hupTo hdrop).seq
          fun rest σ₃ h₃ => ?_
        obtain ⟨hrest, hw'⟩ := h₃
        refine ensures_pure ⟨by omega, ?_⟩
        have hoff : offset + chunk = offset + (buffer.take chunk).length := by rw [hlen]
        rw [hoff] at hw'
        have happ := hw.append hw'
        rwa [← List.take_add] at happ
      · intro n σ' hrun
        rw [StateT.run_bind, byteToSector_stuck h hlt hcap] at hrun
        cases hrun
    · refine (byteToSector_returns h fun hlt => absurd hlt (Nat.not_lt.2 hge)).ensures.seq
        fun sector σ₁ h₁ => ?_
      obtain ⟨rfl, -⟩ := h₁
      refine (inodeLength_returns h).ensures.seq fun length σ₂ h₂ => ?_
      obtain ⟨rfl, rfl⟩ := h₂
      rw [dif_pos ((chunkSize_le_zero hsize).2 hge)]
      refine ensures_pure ⟨by omega, ?_⟩
      rw [List.take_zero]
      exact .refl t offset _

end Loop

/-! ### The law -/

section Law

variable {fm : Tree} {held : Option InodePtr} {σ σ₁ σ' : FsState} {t t' : Tree}
  {len n offset : ℕ} {buffer : List UInt8}

/-- A file that was written to is built as it was. -/
theorem Overwrote.built (hw : Overwrote t offset buffer σ σ') (h : Built fm σ t len) :
    Built fm σ' t len := by
  have hmap := hw.freeMap
  refine ⟨hw.laid h.toLaid, h.upTo, ⟨h.claimed.nonzero, fun s hs => ?_, h.claimed.notOwn⟩,
    fun s hs => ?_⟩
  · rw [hmap]
    exact h.claimed.taken s hs
  · rw [hmap]
    exact h.inRange s hs

theorem Built.length_eq (h : Built fm σ t len) : (σ.store (t.sector .root)).length = len := by
  rw [h.store_root]
  exact h.length

/-- A byte of the file is in one of its blocks, or behind the last one of the index. -/
theorem Built.blocks_or (h : Built fm σ t len) {pos : ℕ} (hpos : pos < len) :
    pos / 512 < t.blocks ∨ capacity ≤ pos / 512 := by
  have hin := h.lt_bytesToSectors hpos
  rw [h.upTo, lt_min_iff]
  rcases Nat.lt_or_ge (pos / 512) capacity with hlt | hge
  · exact .inl ⟨hin, hlt⟩
  · exact .inr hge

/-- Bytes that were not written are as they were. -/
theorem Overwrote.byteAt_eq (hw : Overwrote t offset buffer σ σ') (h : Built fm σ t len) {pos : ℕ}
    (hpos : pos < offset ∨ offset + buffer.length ≤ pos) :
    byteAt σ' (t.sector .root) pos = byteAt σ (t.sector .root) pos := by
  rw [(hw.built h).byteAt_eq, h.byteAt_eq]
  split_ifs with hblock
  · rw [hw.bytes pos (by omega), overwrite_outside _ hpos]
  · rfl

/-- **A write that does not grow the file.** -/
theorem lengthLaw_of_overwrote (h : Built fm σ t len) (hn : n = min buffer.length (len - offset))
    (hw : Overwrote t offset (buffer.take n) σ σ') :
    LengthLaw σ (t.sector .root) offset n σ' := by
  have htake : (buffer.take n).length = n := by
    rw [List.length_take]
    omega
  refine ⟨?_, fun pos _ hout => hw.byteAt_eq h (by rwa [htake])⟩
  rw [(hw.built h).length_eq, h.length_eq]
  show (len : ℤ) = _
  split_ifs <;> omega

/-- **A write that follows growth**: the length is the one asked for. -/
theorem lengthLaw_iff_of_grown (h : Built fm σ t len) (hle : len ≤ offset + buffer.length)
    (ha : Altered fm.sectors (FreeMapFile fm held) σ t (offset + buffer.length) [] σ₁ t')
    (hroot : t'.sector .root = t.sector .root) (h' : Built fm σ₁ t' (offset + buffer.length))
    (hn : n = min buffer.length (offset + buffer.length - offset))
    (hw : Overwrote t' offset (buffer.take n) σ₁ σ') :
    LengthLaw σ (t.sector .root) offset n σ' ↔ (buffer.length = 0 → offset ≤ len) := by
  have hn' : n = buffer.length := by omega
  have hlen' := (hw.built h').length_eq
  rw [hroot] at hlen'
  have htake : (buffer.take n).length = n := by
    rw [List.length_take]
    omega
  constructor
  · intro hlaw hzero
    have hlength := hlaw.length
    rw [hlen', h.length_eq, if_pos (hn'.trans hzero)] at hlength
    have := Int.ofNat_inj.1 hlength
    omega
  · intro hzero
    refine ⟨?_, fun pos hpos hout => ?_⟩
    · rw [hlen', h.length_eq]
      show ((offset + buffer.length : ℕ) : ℤ) = _
      split_ifs <;> omega
    · rw [h.length_eq] at hpos
      have hkeep : byteAt σ' (t'.sector .root) pos = _ := hw.byteAt_eq h' (by rwa [htake])
      rw [hroot] at hkeep
      rw [hkeep, ← hroot, h'.byteAt_eq, hroot, h.byteAt_eq]
      have hmore := ha.blocks
      rcases h.blocks_or (Int.ofNat_lt.1 hpos) with hblock | hcap
      · rw [if_pos hblock, if_pos (by omega), ha.bytes pos (by omega), overwrite_nil]
        refine congrArg some (entry_congr (congrArg σ.store ?_))
        exact ha.keep _ (.inr ⟨_, hblock, rfl⟩)
      · have := h.capacity
        have := h'.capacity
        rw [if_neg (by omega), if_neg (by omega)]

/-- **Growth that fails.** -/
theorem lengthLaw_iff_of_failed (huse : InUse fm held σ) (h : Built fm σ t len)
    (hmem : σ.memory 0 = true) {newSize : ℤ}
    (hrun : (inodeResize held (t.sector .root) newSize).run σ = some (false, σ')) :
    LengthLaw σ (t.sector .root) offset 0 σ' ↔
      SparesIndex σ t.blocks (bytesToSectors newSize - bytesToSectors len) := by
  obtain ⟨hmore, allocated, f, a, ι, d, σ₁, freed, f', g, ι', d', hback⟩ :=
    (inodeResize_fails huse h hmem newSize).of_run hrun rfl
  constructor
  · intro hlaw
    by_contra hspare
    obtain ⟨b, hb, hle, hgone⟩ := hback.lost_block h hspare
    have hpos := h.lt_len hb hle
    have hdiv : 512 * b / 512 = b := Nat.mul_div_cancel_left b (by norm_num)
    have hkeep := hlaw.keep (512 * b) (by rw [h.length_eq]; exact Int.ofNat_lt.2 hpos) (by omega)
    rw [h.byteAt_eq, hdiv, if_pos hb] at hkeep
    unfold byteAt at hkeep
    rw [hdiv, if_pos hgone] at hkeep
    cases hkeep
  · intro hspare
    refine ⟨?_, fun pos hpos _ => hback.byteAt_eq h hspare ?_⟩
    · rw [if_pos rfl, hback.store_root h]
    · rw [h.length_eq] at hpos
      exact Int.ofNat_lt.1 hpos

/-- A call that changes neither the sectors nor the free map. -/
theorem lengthLaw_of_store (hstore : σ'.store = σ.store) {root : BlockSector} :
    LengthLaw σ root offset 0 σ' := by
  refine ⟨by rw [if_pos rfl, hstore], fun pos _ _ => ?_⟩
  unfold byteAt nodeAt
  rw [hstore]

/-- When a call of `inode_write_at` for `size` bytes keeps to the law: it is denied, or stays in front
of the end or runs over the largest `off_t`, or `calloc` fails, or growth succeeds and bytes are
written after it, or growth fails and what is taken back spares the index blocks. -/
def Lawful (σ : FsState) (inode : Inode) (len offset size : ℕ) : Prop :=
  inode.denyWriteCnt ≠ 0 ∨ offset + size < len ∨ 2 ^ 31 ≤ offset + size ∨ σ.memory 0 = false ∨
    (Grows σ len (offset + size) ∧ (size = 0 → offset ≤ len)) ∨
    (¬Grows σ len (offset + size) ∧ SparesIndex σ (blocksOf len)
      (bytesToSectors ((offset + size : ℕ) : ℤ) - bytesToSectors len))

end Law

/-- The ways through `inode_write_at`. -/
theorem inodeWriteAt_ways {σ σ' : FsState} {p : InodePtr} {inode : Inode} {buffer : List UInt8}
    {offset n : ℕ} (hp : σ.inodes p = some inode)
    (hrun : (inodeWriteAt p buffer offset).run σ = some (n, σ')) :
    (inode.denyWriteCnt ≠ 0 ∧ n = 0 ∧ σ' = σ) ∨
      (inode.denyWriteCnt = 0 ∧
        ¬(σ.store inode.sector).length ≤ wrap32 (offset + buffer.length) ∧
        (writeLoop inode.sector buffer offset).run σ = some (n, σ')) ∨
      (inode.denyWriteCnt = 0 ∧
        (σ.store inode.sector).length ≤ wrap32 (offset + buffer.length) ∧ ∃ ok σ₁,
        (inodeResize (some p) inode.sector (wrap32 (offset + buffer.length))).run σ =
          some (ok, σ₁) ∧
        ((ok = false ∧ n = 0 ∧ σ' = σ₁) ∨
          (ok = true ∧ (writeLoop inode.sector buffer offset).run σ₁ = some (n, σ')))) := by
  have hlen : (inodeLength inode.sector).run σ = some ((σ.store inode.sector).length, σ) := rfl
  unfold inodeWriteAt inodeWriteAtWith at hrun
  rw [run_bind_of_run (run_getInode hp)] at hrun
  split_ifs at hrun with hdeny
  · obtain ⟨rfl, rfl⟩ := Prod.mk.inj (Option.some.inj hrun)
    exact .inl ⟨hdeny, rfl, rfl⟩
  rw [not_not] at hdeny
  dsimp only at hrun
  rw [run_bind_of_run hlen] at hrun
  split_ifs at hrun with hgrow
  · obtain ⟨ok, σ₁, hresize, hrest⟩ := run_bind_cases hrun
    refine .inr (.inr ⟨hdeny, hgrow, ok, σ₁, hresize, ?_⟩)
    cases ok with
    | false =>
      obtain ⟨rfl, rfl⟩ := Prod.mk.inj (Option.some.inj hrest)
      exact .inl ⟨rfl, rfl, rfl⟩
    | true => exact .inr ⟨rfl, hrest⟩
  · exact .inr (.inl ⟨hdeny, hgrow, hrun⟩)

/-- A sum over the largest `off_t`. -/
theorem wrap32_neg_of_ge {m k : ℕ} (h : 2 ^ 31 ≤ m + k) (h' : m + k < 2 ^ 32) :
    wrap32 ((m : ℤ) + (k : ℤ)) < 0 := by
  have hmod : ((m : ℤ) + k) % (2 ^ 32 : ℕ) = (m : ℤ) + k := by omega
  have hlarge : ¬(m : ℤ) + k < (((2 ^ 32 : ℕ) : ℤ) + 1) / 2 := by omega
  have hneg : (m : ℤ) + k - (2 ^ 32 : ℕ) < 0 := by omega
  unfold wrap32
  rw [Int.bmod_def, hmod, if_neg hlarge]
  exact hneg

/-- A request for memory that is not met. -/
theorem run_inodeResize_of_memory {σ : FsState} (hmem : σ.memory 0 = false) (held : Option InodePtr)
    (root : BlockSector) (newSize : Off) :
    (inodeResize held root newSize).run σ = some (false, σ.shift) := by
  unfold inodeResize inodeResizeWith
  rw [run_bind_of_run (run_alloc σ), hmem, if_pos rfl]
  rfl

/-- **The length changes only by bytes written.**  A call of `inode_write_at` that returns keeps to
the law if and only if it is one of those. -/
theorem inodeWriteAt_lawful {fm : Tree} {σ σ' : FsState} {t : Tree} {len : ℕ} {p : InodePtr}
    {inode : Inode} {buffer : List UInt8} {offset n : ℕ} (huse : InUse fm (some p) σ)
    (hp : σ.inodes p = some inode) (hsector : inode.sector = t.sector .root) (h : Built fm σ t len)
    (hoffset : offset < 2 ^ 31) (hsize : buffer.length < 2 ^ 31)
    (hrun : (inodeWriteAt p buffer offset).run σ = some (n, σ')) :
    LengthLaw σ inode.sector offset n σ' ↔ Lawful σ inode len offset buffer.length := by
  have hblocks : t.blocks = blocksOf len := h.upTo
  have hlen := h.length_eq
  have hways := inodeWriteAt_ways hp hrun
  unfold Lawful
  rw [hsector] at hways ⊢
  rw [hlen] at hways
  rcases Nat.lt_or_ge (offset + buffer.length) (2 ^ 31) with hfit | hover
  swap
  · -- the sum is negative
    have hneg : wrap32 (offset + buffer.length) < 0 := wrap32_neg_of_ge hover (by omega)
    refine iff_of_true ?_ (.inr (.inr (.inl hover)))
    obtain ⟨-, rfl, rfl⟩ | ⟨-, -, hloop⟩ | ⟨-, hle, -⟩ := hways
    · exact lengthLaw_of_store rfl
    · obtain ⟨hn, hw⟩ := writeLoop_ensures _ h.toLaid (fun pos => h.blocks_or) rfl _ _ hloop
      exact lengthLaw_of_overwrote h hn hw
    · have : (0 : ℤ) ≤ len := Int.natCast_nonneg len
      exact absurd (this.trans hle) (not_le.2 hneg)
  rw [wrap32_add hfit] at hways
  obtain ⟨hdeny, rfl, rfl⟩ | ⟨hdeny, hless, hloop⟩ | ⟨hdeny, hle, ok, σ₁, hresize, hrest⟩ := hways
  · exact iff_of_true (lengthLaw_of_store rfl) (.inl hdeny)
  · have hless' : offset + buffer.length < len := Int.ofNat_lt.1 (not_le.1 hless)
    obtain ⟨hn, hw⟩ := writeLoop_ensures _ h.toLaid (fun pos => h.blocks_or) rfl _ _ hloop
    exact iff_of_true (lengthLaw_of_overwrote h hn hw) (.inr (.inl hless'))
  have hle' : len ≤ offset + buffer.length := Int.ofNat_le.1 hle
  cases hmem : σ.memory 0 with
  | false =>
    rw [run_inodeResize_of_memory hmem] at hresize
    obtain ⟨rfl, rfl⟩ := Prod.mk.inj (Option.some.inj hresize)
    obtain ⟨-, rfl, rfl⟩ | ⟨hok, -⟩ := hrest
    · have hstore : σ.shift.store = σ.store := rfl
      exact iff_of_true (lengthLaw_of_store hstore) (.inr (.inr (.inr (.inl rfl))))
    · cases hok
  | true =>
    have hgrows := grows_iff huse h hmem hle' hfit hresize
    have hclear : ∀ {P : Prop}, (inode.denyWriteCnt ≠ 0 ∨ offset + buffer.length < len ∨
        2 ^ 31 ≤ offset + buffer.length ∨ true = false ∨ P) ↔ P := by
      intro P
      simp only [hdeny, not_lt.2 hle', not_le.2 hfit, ne_eq, not_true_eq_false, false_or,
        Bool.true_eq_false]
    rw [hclear, hgrows]
    obtain ⟨rfl, rfl, rfl⟩ | ⟨rfl, hloop⟩ := hrest
    · rw [lengthLaw_iff_of_failed huse h hmem hresize, hblocks]
      simp
    · obtain ⟨-, t', hroot, haltered, hbuilt⟩ := inodeResize_built huse h hle' hfit _ _ hresize rfl
      rw [← hroot] at hloop
      obtain ⟨hn, hw⟩ := writeLoop_ensures _ hbuilt.toLaid (fun pos => hbuilt.blocks_or) rfl _ _ hloop
      rw [lengthLaw_iff_of_grown h hle' haltered hroot hbuilt hn hw]
      simp

/-- An open file of up to `8 MB` on a formatted device, and memory for all requests. -/
theorem exists_opened {m : ℕ} (hm : m ≤ 512 * capacity) : ∃ fm σ t p, InUse fm (some p) σ ∧
    Built fm σ t m ∧ σ.Memory ∧ σ.inodes p = some ⟨t.sector .root, 1, false, 0⟩ := by
  obtain ⟨fm, σ, t, huse, hbuilt, hmem⟩ := exists_built hm
  obtain ⟨q, hq⟩ := Option.ne_none_iff_exists'.1 huse.isOpen
  let p : InodePtr := q + 1
  let σ' : FsState :=
    { σ with inodes := Function.update σ.inodes p (some ⟨t.sector .root, 1, false, 0⟩) }
  have hne : ∀ q', σ.freeMapFile = some q' → q' ≠ p := by
    intro q' hq'
    obtain rfl := Option.some.inj (hq'.symm.trans hq)
    exact (Nat.lt_succ_self q').ne
  refine ⟨fm, σ', t, p, ⟨⟨fun q' hq' he => ?_, fun q' hq' => ?_, fun hopen => ?_⟩, huse.isOpen,
    ⟨huse.reserved.zero, huse.reserved.own⟩⟩, ⟨hbuilt.toLaid.congr fun _ _ => rfl, hbuilt.upTo,
    ⟨hbuilt.claimed.nonzero, hbuilt.claimed.taken, hbuilt.claimed.notOwn⟩, hbuilt.inRange⟩, hmem,
    Function.update_self ..⟩
  · exact hne q' hq' (Option.some.inj he).symm
  · obtain ⟨inode, hinode, hrest⟩ := huse.file.inode q' hq'
    exact ⟨inode, (Function.update_of_ne (hne q' hq') _ _).trans hinode, hrest⟩
  · exact (huse.file.file hopen).congr fun _ _ => rfl

/-- A byte written in front of the end of a file. -/
theorem inodeWriteAt_lawful_inside : ∃ σ t p σ', (inodeWriteAt p [7] 3).run σ = some (1, σ') ∧
    LengthLaw σ (Tree.sector t .root) 3 1 σ' := by
  obtain ⟨fm, σ, t, p, huse, hbuilt, hmem, hp⟩ := exists_opened (m := 512) (by decide)
  have hfile : FileAt σ t 512 := ⟨hbuilt.toLaid, hbuilt.upTo⟩
  have hcases := inodeWriteAtWith_cases (bitmapWrites fm (some p)) hfile hbuilt.claimed huse.reserved
    huse.file hp rfl rfl (show 3 + ([7] : List UInt8).length ≤ 512 * capacity by decide)
  obtain ⟨n, σ', hrun, rfl, -⟩ := hcases.resolve_right fun hno => hno.1 ⟨hmem, by
    rw [hfile.blocks]
    exact Nat.le_add_left _ _⟩
  exact ⟨σ, t, p, σ', hrun, (inodeWriteAt_lawful huse hp rfl hbuilt (by norm_num) (by decide)
    hrun).2 (.inr (.inl (by decide)))⟩

/-- Writing no bytes behind the end of a file makes it longer. -/
theorem not_lengthLaw : ∃ fm σ t p σ', InUse fm (some p) σ ∧ Built fm σ t 1 ∧ σ.Memory ∧
    σ.inodes p = some ⟨t.sector .root, 1, false, 0⟩ ∧
    (inodeWriteAt p [] 100).run σ = some (0, σ') ∧
    ¬LengthLaw σ (t.sector .root) 100 0 σ' := by
  obtain ⟨fm, σ, t, p, huse, hbuilt, hmem, hp⟩ := exists_opened (m := 1) (by decide)
  have hfile : FileAt σ t 1 := ⟨hbuilt.toLaid, hbuilt.upTo⟩
  have hcases := inodeWriteAtWith_cases (bitmapWrites fm (some p)) hfile hbuilt.claimed huse.reserved
    huse.file hp rfl rfl (show 100 + ([] : List UInt8).length ≤ 512 * capacity by decide)
  obtain ⟨n, σ', hrun, rfl, t', hw⟩ := hcases.resolve_right fun hno => hno.1 ⟨hmem, by
    rw [hfile.blocks]
    exact Nat.le_add_left _ _⟩
  refine ⟨fm, σ, t, p, σ', huse, hbuilt, hmem, hp, hrun, fun hlaw => ?_⟩
  have hlen : (σ'.store (t.sector .root)).length = (100 : ℤ) := by
    rw [← hw.keep .root hbuilt.root_mem, hw.file.store_root]
    exact hw.file.length
  have hlength := hlaw.length
  rw [hlen, if_pos rfl, hbuilt.length_eq] at hlength
  exact absurd hlength (by decide)

end Filesys
end CS162

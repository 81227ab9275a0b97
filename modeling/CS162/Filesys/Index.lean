/-
# The index of any inode

`projects1-3/src/filesys/inode.c`, lines 190-408.

`BlockMap` has the index trees of files whose blocks are `0` to `blocks - 1`.
An inode that `free_blocks` has worked on may lack any of its blocks, so here
the index is the sector of every node, `0` for a node that is not there:
`indexOf` reads it off the sectors.  `Indexed` says that the nodes that are there
lie on the sectors of the device apart from each other.  `allocate_blocks` and
`free_blocks` change it one node at a time: `Indexed.put` and `Indexed.cut`.
-/

import CS162.Filesys.BlockMap
import CS162.Filesys.InodeWrite

namespace CS162
namespace Filesys

open CS162.Basis

/-- What the nodes of an inode hold and the sectors they are in; `0` is none. -/
structure Index where
  table : Slot → Sector
  sector : Slot → BlockSector

/-- An entry of the index block in a sector, if there is one. -/
def tableEntry (store : BlockSector → Sector) (sector : BlockSector) (i : Fin 128) : BlockSector :=
  if sector = 0 then 0 else (store sector).word i

/-- Where the nodes of the inode `d` in sector `root` are, as its entries say. -/
def nodeSector (store : BlockSector → Sector) (root : BlockSector) (d : Sector) : Slot → BlockSector
  | .data b =>
    if h : b < 12 then d.word ⟨b, h.trans (by decide)⟩
    else if h' : b < 140 then
      tableEntry store d.indirect ⟨b - 12, Nat.sub_lt_left_of_lt_add (Nat.le_of_not_lt h) h'⟩
    else if h : (b - 140) / 128 < 128 then
      tableEntry store (tableEntry store d.doublyIndirect ⟨(b - 140) / 128, h⟩)
        ⟨(b - 140) % 128, Nat.mod_lt _ (Nat.succ_pos 127)⟩
    else 0
  | .table i => tableEntry store d.doublyIndirect i
  | .doubly => d.doublyIndirect
  | .indirect => d.indirect
  | .root => root

/-- The index of the inode `d` in sector `root`. -/
def indexOf (store : BlockSector → Sector) (root : BlockSector) (d : Sector) : Index where
  table s := if s = .root then d else store (nodeSector store root d s)
  sector := nodeSector store root d

/-- The node is an index block. -/
def Slot.IsTable : Slot → Prop
  | data _ => False
  | _ => True

theorem Slot.isTable_iff {s : Slot} : s.IsTable ↔ ∀ b, s ≠ .data b := by
  cases s <;> simp [Slot.IsTable]

/-- What has an entry is an index block. -/
theorem Slot.isTable_of_child {p c : Slot} {i : Fin 128} (h : p.child i = some c) : p.IsTable := by
  cases p with
  | data b => cases h
  | _ => trivial

theorem Slot.child_ne_root {p c : Slot} {i : Fin 128} (h : p.child i = some c) : c ≠ .root := by
  rintro rfl
  cases Slot.parent_eq_of_child h

/-- The entries for data blocks. -/
theorem Slot.lt_capacity {p : Slot} {i : Fin 128} {b : ℕ} (h : p.child i = some (.data b)) :
    b < capacity := by
  have hi := i.isLt
  unfold capacity
  cases p with
  | root =>
    simp only [Slot.child] at h
    split_ifs at h
    · have := Slot.data.inj (Option.some.inj h)
      omega
    · cases h
    · cases h
  | indirect =>
    have := Slot.data.inj (Option.some.inj h)
    omega
  | doubly => cases h
  | table k =>
    have hk := k.isLt
    have := Slot.data.inj (Option.some.inj h)
    omega
  | data b => cases h

/-- No node is its own entry. -/
theorem Slot.child_ne_self {p c : Slot} {i : Fin 128} (h : p.child i = some c) : c ≠ p := by
  rintro rfl
  cases c with
  | root =>
    simp only [Slot.child] at h
    split_ifs at h <;> cases h
  | _ => cases h

/-- All nodes an index may have. -/
def Slot.all : Finset Slot :=
  {.root, .indirect, .doubly} ∪ Finset.univ.image Slot.table ∪ (Finset.range capacity).image Slot.data

theorem Slot.mem_all {s : Slot} (h : ∀ b, s = .data b → b < capacity) : s ∈ Slot.all := by
  unfold Slot.all
  rw [Finset.mem_union, Finset.mem_union]
  cases s with
  | root => exact .inl (.inl (by simp))
  | indirect => exact .inl (.inl (by simp))
  | doubly => exact .inl (.inl (by simp))
  | table i => exact .inl (.inr (Finset.mem_image_of_mem _ (Finset.mem_univ i)))
  | data b => exact .inr (Finset.mem_image_of_mem _ (Finset.mem_range.2 (h b rfl)))

/-- The first data block that is reached through a node. -/
def Slot.first : Slot → ℕ
  | root => 0
  | indirect => 12
  | doubly => 140
  | table i => 140 + 128 * i.val
  | data b => b

namespace Index

/-- The node is there; the inode always is. -/
def Has (ι : Index) (s : Slot) : Prop := s = .root ∨ ι.sector s ≠ 0

instance instDecidableHas (ι : Index) (s : Slot) : Decidable (ι.Has s) :=
  inferInstanceAs (Decidable (_ ∨ _))

theorem has_root (ι : Index) : ι.Has .root := .inl rfl

theorem has_of_ne {ι : Index} {s : Slot} (h : s ≠ .root) : ι.Has s ↔ ι.sector s ≠ 0 :=
  ⟨fun hs => hs.resolve_left h, .inr⟩

theorem has_data {ι : Index} {b : ℕ} : ι.Has (.data b) ↔ ι.sector (.data b) ≠ 0 :=
  has_of_ne (by simp)

/-- The nodes that are there. -/
def nodes (ι : Index) : Finset Slot := Slot.all.filter ι.Has

/-- The data blocks below `f` that are not there. -/
def empties (ι : Index) (f : ℕ) : Finset ℕ :=
  (Finset.range f).filter fun b => ι.sector (.data b) = 0

theorem empties_succ_of_ne {ι : Index} {f : ℕ} (h : ι.sector (.data f) ≠ 0) :
    ι.empties (f + 1) = ι.empties f := by
  unfold empties
  rw [Finset.range_add_one, Finset.filter_insert, if_neg h]

theorem card_empties_succ {ι : Index} {f : ℕ} (h : ι.sector (.data f) = 0) :
    (ι.empties (f + 1)).card = (ι.empties f).card + 1 := by
  unfold empties
  rw [Finset.range_add_one, Finset.filter_insert, if_pos h, Finset.card_insert_of_notMem]
  simp

/-- The node `c` is put, zeroed, under entry `i` of `p`. -/
def put (ι : Index) (p : Slot) (i : Fin 128) (c : Slot) (v : BlockSector) : Index where
  table := Function.update (Function.update ι.table c Sector.zero) p ((ι.table p).setWord i v)
  sector := Function.update ι.sector c v

/-- The node `c` and its children are taken out from under entry `i` of `p`. -/
def cut (ι : Index) (p : Slot) (i : Fin 128) (c : Slot) : Index where
  table := Function.update ι.table p ((ι.table p).setWord i 0)
  sector s := if s = c ∨ (∃ j, c.child j = some s) then 0 else ι.sector s

end Index

/-! ### Reading the index off the sectors -/

section IndexOf

variable {store : BlockSector → Sector} {root : BlockSector} {d : Sector}

@[simp] theorem indexOf_sector : (indexOf store root d).sector = nodeSector store root d := rfl

@[simp] theorem indexOf_table_root : (indexOf store root d).table .root = d := by
  simp [indexOf]

theorem indexOf_table_of_ne {s : Slot} (h : s ≠ .root) :
    (indexOf store root d).table s = store (nodeSector store root d s) :=
  if_neg h

/-- An entry of a node is the entry of its sector. -/
theorem nodeSector_child {p c : Slot} {i : Fin 128} (h : p.child i = some c) (hp : p ≠ .root) :
    nodeSector store root d c = tableEntry store (nodeSector store root d p) i := by
  have hi := i.isLt
  cases p with
  | root => exact absurd rfl hp
  | indirect =>
    obtain rfl := Option.some.inj h
    have h₁ : ¬12 + i.val < 12 := by omega
    have h₂ : 12 + i.val < 140 := by omega
    simp only [nodeSector, h₁, h₂, dif_neg, dif_pos, not_false_eq_true, Nat.add_sub_cancel_left]
  | doubly =>
    obtain rfl := Option.some.inj h
    rfl
  | table k =>
    obtain rfl := Option.some.inj h
    have hk := k.isLt
    have h₁ : ¬140 + 128 * k.val + i.val < 12 := by omega
    have h₂ : ¬140 + 128 * k.val + i.val < 140 := by omega
    have hdiv : (140 + 128 * k.val + i.val - 140) / 128 = k.val := by omega
    have hmod : (140 + 128 * k.val + i.val - 140) % 128 = i.val := by omega
    simp only [nodeSector, h₁, h₂, dif_neg, not_false_eq_true, hdiv, hmod, hk, dif_pos]
  | data b => cases h

/-- An entry of the inode. -/
theorem nodeSector_root_child {c : Slot} {i : Fin 128} (h : Slot.root.child i = some c) :
    nodeSector store root d c = d.word i := by
  simp only [Slot.child] at h
  split_ifs at h with h₁ h₂ h₃
  · obtain rfl := Option.some.inj h
    simp only [nodeSector, h₁, dif_pos]
  · obtain rfl := Option.some.inj h
    obtain rfl : i = 12 := Fin.ext h₂
    rfl
  · obtain rfl := Option.some.inj h
    obtain rfl : i = 13 := Fin.ext h₃
    rfl

/-- The entries of the nodes that are there are as the index says. -/
theorem indexOf_shown {p c : Slot} {i : Fin 128} (h : p.child i = some c)
    (hp : (indexOf store root d).Has p) :
    ((indexOf store root d).table p).word i = (indexOf store root d).sector c := by
  by_cases hroot : p = .root
  · subst hroot
    rw [indexOf_table_root, indexOf_sector, nodeSector_root_child h]
  · have hne : nodeSector store root d p ≠ 0 := hp.resolve_left hroot
    rw [indexOf_table_of_ne hroot, indexOf_sector, nodeSector_child h hroot, tableEntry, if_neg hne]

/-- Nothing is under a node that is not there. -/
theorem indexOf_closed {p c : Slot} {i : Fin 128} (h : p.child i = some c)
    (hp : ¬(indexOf store root d).Has p) : (indexOf store root d).sector c = 0 := by
  have hroot : p ≠ .root := fun he => hp (.inl he)
  have hzero : nodeSector store root d p = 0 := by
    by_contra hne
    exact hp (.inr hne)
  rw [indexOf_sector, nodeSector_child h hroot, tableEntry, if_pos hzero]

/-- There are `capacity` entries for data blocks. -/
theorem nodeSector_data_of_le {b : ℕ} (h : capacity ≤ b) : nodeSector store root d (.data b) = 0 := by
  unfold capacity at h
  have h₁ : ¬b < 12 := by omega
  have h₂ : ¬b < 140 := by omega
  have h₃ : ¬(b - 140) / 128 < 128 := by omega
  simp only [nodeSector, h₁, h₂, h₃, dif_neg, not_false_eq_true]

end IndexOf

/-! ### Indices on sectors -/

/-- How an index lies on the sectors: the nodes that are there are in sectors of
the device that are apart from each other, allocated, and not the free map
file's.  The index blocks in `buf` are not stored, or not up to date. -/
structure Indexed (own : Set BlockSector) (buf : Set Slot) (σ : FsState) (ι : Index) : Prop where
  shown : ∀ {p c i}, Slot.child p i = some c → ι.Has p → (ι.table p).word i = ι.sector c
  closed : ∀ {p c i}, Slot.child p i = some c → ¬ι.Has p → ι.sector c = 0
  bounded : ∀ {b}, capacity ≤ b → ι.sector (.data b) = 0
  distinct : ∀ {s s'}, ι.Has s → ι.Has s' → ι.sector s = ι.sector s' → s = s'
  stored : ∀ {s}, s.IsTable → ι.Has s → s ∉ buf → σ.store (ι.sector s) = ι.table s
  taken : ∀ {s}, ι.Has s → σ.freeMap.bits (ι.sector s).toNat = true
  inRange : ∀ {s}, ι.Has s → (ι.sector s).toNat < σ.freeMap.bitCnt
  notOwn : ∀ {s}, ι.Has s → ι.sector s ∉ own

namespace Indexed

variable {own : Set BlockSector} {buf : Set Slot} {σ σ' : FsState} {ι : Index} {p c : Slot}
  {i : Fin 128} {v : BlockSector}

/-- Above a node there are nodes. -/
theorem has_parent (h : Indexed own buf σ ι) (hc : p.child i = some c) (hhas : ι.Has c) : ι.Has p := by
  by_contra hno
  have hne := hhas.resolve_left (Slot.child_ne_root hc)
  exact hne (h.closed hc hno)

/-- Fewer index blocks need be up to date. -/
theorem buffer (h : Indexed own buf σ ι) {buf' : Set Slot} (hbuf : buf ⊆ buf') :
    Indexed own buf' σ ι :=
  { h with stored := fun hs hhas hn => h.stored hs hhas fun hb => hn (hbuf hb) }

/-- Only the stored index blocks and the bits of the free map matter. -/
theorem congr (h : Indexed own buf σ ι)
    (hstore : ∀ {s}, s.IsTable → ι.Has s → s ∉ buf →
      σ'.store (ι.sector s) = σ.store (ι.sector s))
    (hbits : ∀ {s}, ι.Has s → σ'.freeMap.bits (ι.sector s).toNat = true)
    (hcnt : σ'.freeMap.bitCnt = σ.freeMap.bitCnt) : Indexed own buf σ' ι :=
  { h with
    stored := fun hs hhas hn => (hstore hs hhas hn).trans (h.stored hs hhas hn)
    taken := hbits
    inRange := fun hhas => by
      rw [hcnt]
      exact h.inRange hhas }

/-- Writing an index block back from its buffer. -/
theorem save (h : Indexed own buf σ ι) (hp : ι.Has p) :
    Indexed own (buf \ {p})
      { σ with store := Function.update σ.store (ι.sector p) (ι.table p) } ι :=
  { h with
    stored := fun {s} hs hhas hn => by
      by_cases hsp : s = p
      · subst hsp
        exact Function.update_self ..
      · have hne : ι.sector s ≠ ι.sector p := fun he => hsp (h.distinct hhas hp he)
        show Function.update σ.store _ _ (ι.sector s) = _
        rw [Function.update_of_ne hne]
        exact h.stored hs hhas fun hb => hn ⟨hb, hsp⟩ }

end Indexed

/-! ### One node more, one node less -/

section Step

variable {own : Set BlockSector} {buf : Set Slot} {σ σ' : FsState} {ι : Index} {p c : Slot}
  {i : Fin 128} {v : BlockSector}

theorem Index.has_put (hc : c ≠ .root) (hv : v ≠ 0) {s : Slot} :
    (ι.put p i c v).Has s ↔ s = c ∨ ι.Has s := by
  by_cases hs : s = c
  · subst hs
    have hself : (ι.put p i s v).sector s = v := Function.update_self ..
    simp [Index.has_of_ne hc, hself, hv]
  · have hother : (ι.put p i c v).sector s = ι.sector s := Function.update_of_ne hs _ _
    simp [Index.Has, hother, hs]

theorem Index.sector_put_self : (ι.put p i c v).sector c = v := Function.update_self ..

theorem Index.sector_put {s : Slot} (h : s ≠ c) : (ι.put p i c v).sector s = ι.sector s :=
  Function.update_of_ne h _ _

theorem Index.table_put_self : (ι.put p i c v).table p = (ι.table p).setWord i v :=
  Function.update_self ..

theorem Index.table_put {s : Slot} (hp : s ≠ p) (hc : s ≠ c) : (ι.put p i c v).table s = ι.table s := by
  show Function.update (Function.update ι.table c Sector.zero) p _ s = _
  rw [Function.update_of_ne hp, Function.update_of_ne hc]

/-- A free sector is none of the index's. -/
theorem Indexed.sector_ne (h : Indexed own buf σ ι) (hv : v.toNat ∈ σ.freeMap.free) {s : Slot}
    (hs : ι.Has s) : ι.sector s ≠ v := by
  rintro rfl
  have hbit := (Bitmap.mem_free.1 hv).2
  rw [h.taken hs] at hbit
  cases hbit

/-- A free sector is not sector `0`. -/
theorem Reserved.ne_zero (hr : Reserved own σ) (hv : v.toNat ∈ σ.freeMap.free) : v ≠ 0 := by
  rintro rfl
  have hbit := (Bitmap.mem_free.1 hv).2
  rw [show (0 : BlockSector).toNat = 0 from rfl, hr.zero] at hbit
  cases hbit

/-- A free sector is not the free map file's. -/
theorem Reserved.notMem (hr : Reserved own σ) (hv : v.toNat ∈ σ.freeMap.free) : v ∉ own := by
  intro hmem
  have hbit := (Bitmap.mem_free.1 hv).2
  rw [hr.own v hmem] at hbit
  cases hbit

/-- **One node more**: a free sector becomes the node `c`, zeroed if it is an index
block. -/
theorem Indexed.put (h : Indexed own buf σ ι) (hr : Reserved own σ) (hp : ι.Has p) (hbuf : p ∈ buf)
    (hc : p.child i = some c) (hempty : ι.sector c = 0) (hv : v.toNat ∈ σ.freeMap.free)
    (hmap : σ'.freeMap = σ.freeMap.setMultiple v.toNat 1 true)
    (hstore : ∀ x ∉ own, x ≠ v → σ'.store x = σ.store x)
    (hzero : c.IsTable → σ'.store v = Sector.zero) : Indexed own buf σ' (ι.put p i c v) := by
  have hv₀ := hr.ne_zero hv
  have hcroot := Slot.child_ne_root hc
  have hcp := Slot.child_ne_self hc
  have hnew : ¬ι.Has c := fun hhas => (hhas.resolve_left hcroot) hempty
  have hhas : ∀ {s}, (ι.put p i c v).Has s ↔ s = c ∨ ι.Has s := Index.has_put hcroot hv₀
  have hold : ∀ {s}, ι.Has s → (ι.put p i c v).sector s = ι.sector s := by
    intro s hs
    refine Index.sector_put ?_
    rintro rfl
    exact hnew hs
  -- the new node is no other node's child
  have honly : ∀ {q j d}, Slot.child q j = some d → (q ≠ p ∨ j ≠ i) → d ≠ c := by
    rintro q j d hd hne rfl
    obtain ⟨rfl, rfl⟩ := Slot.child_inj q j p i d hd hc
    simp at hne
  refine ⟨fun {q d j} hd hq => ?_, fun {q d j} hd hq => ?_, fun {b} hb => ?_, fun {s s'} hs hs' he => ?_,
    fun {s} hst hs hn => ?_, fun {s} hs => ?_, fun {s} hs => ?_, fun {s} hs => ?_⟩
  · by_cases hqp : q = p
    · subst hqp
      rw [Index.table_put_self, Sector.word_setWord]
      split_ifs with hj
      · obtain rfl : i = j := hj
        obtain rfl := Option.some.inj (hd.symm.trans hc)
        exact Index.sector_put_self.symm
      · rw [Index.sector_put (honly hd (.inr fun he => hj he.symm))]
        exact h.shown hd hp
    · rw [Index.sector_put (honly hd (.inl hqp))]
      by_cases hqc : q = c
      · subst hqc
        have htable : (ι.put p i q v).table q = Sector.zero := by
          show Function.update (Function.update ι.table q Sector.zero) p _ q = _
          rw [Function.update_of_ne hcp, Function.update_self]
        rw [htable, Sector.word_zero, h.closed hd hnew]
      · rw [Index.table_put hqp hqc]
        exact h.shown hd ((hhas.1 hq).resolve_left hqc)
  · have hq' : q ≠ c ∧ ¬ι.Has q := not_or.1 fun hor => hq (hhas.2 hor)
    have hdc : d ≠ c := by
      rintro rfl
      obtain ⟨rfl, -⟩ := Slot.child_inj q j p i d hd hc
      exact hq'.2 hp
    rw [Index.sector_put hdc]
    exact h.closed hd hq'.2
  · have hbc : Slot.data b ≠ c := by
      rintro rfl
      exact absurd (Slot.lt_capacity hc) (not_lt.2 hb)
    rw [Index.sector_put hbc]
    exact h.bounded hb
  · rcases hhas.1 hs with rfl | hold₁ <;> rcases hhas.1 hs' with rfl | hold₂
    · rfl
    · rw [Index.sector_put_self, hold hold₂] at he
      exact absurd he.symm (h.sector_ne hv hold₂)
    · rw [Index.sector_put_self, hold hold₁] at he
      exact absurd he (h.sector_ne hv hold₁)
    · rw [hold hold₁, hold hold₂] at he
      exact h.distinct hold₁ hold₂ he
  · have hsp : s ≠ p := by
      rintro rfl
      exact hn hbuf
    rcases hhas.1 hs with rfl | hold₁
    · have htable : (ι.put p i s v).table s = Sector.zero := by
        show Function.update (Function.update ι.table s Sector.zero) p _ s = _
        rw [Function.update_of_ne hsp, Function.update_self]
      rw [Index.sector_put_self, htable]
      exact hzero hst
    · have hsc : s ≠ c := by
        rintro rfl
        exact hnew hold₁
      rw [hold hold₁, Index.table_put hsp hsc, hstore _ (h.notOwn hold₁) (h.sector_ne hv hold₁)]
      exact h.stored hst hold₁ hn
  · rw [hmap, Bitmap.bits_setMultiple_one]
    split_ifs with hn
    · rfl
    · rcases hhas.1 hs with rfl | hold₁
      · exact absurd (congrArg UInt32.toNat Index.sector_put_self) hn
      · rw [hold hold₁]
        exact h.taken hold₁
  · rw [hmap, Bitmap.bitCnt_setMultiple]
    rcases hhas.1 hs with rfl | hold₁
    · rw [Index.sector_put_self]
      exact (Bitmap.mem_free.1 hv).1
    · rw [hold hold₁]
      exact h.inRange hold₁
  · rcases hhas.1 hs with rfl | hold₁
    · rw [Index.sector_put_self]
      exact hr.notMem hv
    · rw [hold hold₁]
      exact h.notOwn hold₁

/-! ### One node less -/

theorem Index.has_cut (hc : c ≠ .root) {s : Slot} :
    (ι.cut p i c).Has s ↔ ι.Has s ∧ s ≠ c ∧ ∀ j, c.child j ≠ some s := by
  by_cases hroot : s = .root
  · subst hroot
    refine ⟨fun _ => ⟨.inl rfl, hc.symm, fun j hj => Slot.child_ne_root hj rfl⟩, fun _ => .inl rfl⟩
  · rw [Index.has_of_ne hroot, Index.has_of_ne hroot]
    show (if s = c ∨ (∃ j, c.child j = some s) then 0 else ι.sector s) ≠ 0 ↔ _
    split_ifs with hcut
    · refine ⟨fun h => absurd rfl h, fun h => ?_⟩
      rcases hcut with rfl | ⟨j, hj⟩
      · exact absurd rfl h.2.1
      · exact absurd hj (h.2.2 j)
    · rw [not_or, not_exists] at hcut
      exact ⟨fun h => ⟨h, hcut.1, hcut.2⟩, fun h => h.1⟩

theorem Index.sector_cut {s : Slot} (hc : s ≠ c) (hchild : ∀ j, c.child j ≠ some s) :
    (ι.cut p i c).sector s = ι.sector s := by
  refine if_neg ?_
  rw [not_or, not_exists]
  exact ⟨hc, hchild⟩

theorem Index.sector_cut_eq_zero {s : Slot} (h : s = c ∨ ∃ j, c.child j = some s) :
    (ι.cut p i c).sector s = 0 :=
  if_pos h

theorem Index.sector_cut_cases {s : Slot} :
    (ι.cut p i c).sector s = 0 ∨ (ι.cut p i c).sector s = ι.sector s := by
  show (if _ then _ else _) = _ ∨ (if _ then _ else _) = _
  split_ifs
  · exact .inl rfl
  · exact .inr rfl

theorem Index.table_cut_self : (ι.cut p i c).table p = (ι.table p).setWord i 0 :=
  Function.update_self ..

theorem Index.table_cut {s : Slot} (h : s ≠ p) : (ι.cut p i c).table s = ι.table s :=
  Function.update_of_ne h _ _

/-- **One node less**: its sector is released.  What was under it is no node any
more, and stays allocated. -/
theorem Indexed.cut (h : Indexed own buf σ ι) (hp : ι.Has p) (hbuf : p ∈ buf)
    (hc : p.child i = some c) (hhas : ι.Has c)
    (hflat : ∀ j d, c.child j = some d → d.IsTable → ¬ι.Has d)
    (hmap : σ'.freeMap = σ.freeMap.setMultiple (ι.sector c).toNat 1 false)
    (hstore : ∀ x ∉ own, x ≠ ι.sector c → σ'.store x = σ.store x) :
    Indexed own buf σ' (ι.cut p i c) := by
  have hcroot := Slot.child_ne_root hc
  have hcut : ∀ {s}, (ι.cut p i c).Has s ↔ ι.Has s ∧ s ≠ c ∧ ∀ j, c.child j ≠ some s :=
    Index.has_cut hcroot
  have hold : ∀ {s}, (ι.cut p i c).Has s → (ι.cut p i c).sector s = ι.sector s := by
    intro s hs
    exact Index.sector_cut (hcut.1 hs).2.1 (hcut.1 hs).2.2
  have hne : ∀ {s}, (ι.cut p i c).Has s → ι.sector s ≠ ι.sector c :=
    fun hs he => (hcut.1 hs).2.1 (h.distinct (hcut.1 hs).1 hhas he)
  have hbits : ∀ {s}, (ι.cut p i c).Has s →
      σ'.freeMap.bits (ι.sector s).toNat = σ.freeMap.bits (ι.sector s).toNat := by
    intro s hs
    rw [hmap, Bitmap.bits_setMultiple_one, if_neg]
    exact fun he => hne hs (UInt32.toNat_inj.1 he)
  have hzero : ∀ {q j d}, Slot.child q j = some d → ι.sector d = 0 → (ι.cut p i c).sector d = 0 := by
    intro q j d _ hd
    rcases Index.sector_cut_cases (ι := ι) (p := p) (i := i) (c := c) (s := d) with he | he
    · exact he
    · rw [he, hd]
  refine ⟨fun {q d j} hd hq => ?_, fun {q d j} hd hq => ?_, fun {b} hb => ?_, fun {s s'} hs hs' he => ?_,
    fun {s} hst hs hn => ?_, fun {s} hs => ?_, fun {s} hs => ?_, fun {s} hs => ?_⟩
  · have hq' := hcut.1 hq
    by_cases hdc : d = c
    · subst hdc
      obtain ⟨rfl, rfl⟩ := Slot.child_inj q j p i d hd hc
      rw [Index.table_cut_self, Sector.word_setWord_self, Index.sector_cut_eq_zero (.inl rfl)]
    · have hkeep : (ι.cut p i c).sector d = ι.sector d := by
        refine Index.sector_cut hdc fun k hk => ?_
        obtain ⟨rfl, -⟩ := Slot.child_inj c k q j d hk hd
        exact hq'.2.1 rfl
      rw [hkeep]
      by_cases hqp : q = p
      · subst hqp
        have hij : i ≠ j := by
          rintro rfl
          exact hdc (Option.some.inj (hd.symm.trans hc))
        rw [Index.table_cut_self, Sector.word_setWord_of_ne _ hij]
        exact h.shown hd hp
      · rw [Index.table_cut hqp]
        exact h.shown hd hq'.1
  · by_cases hq₁ : ι.Has q
    · have hor : q = c ∨ ∃ k, c.child k = some q := by
        by_contra hno
        rw [not_or, not_exists] at hno
        exact hq (hcut.2 ⟨hq₁, hno.1, hno.2⟩)
      rcases hor with rfl | ⟨k, hk⟩
      · exact Index.sector_cut_eq_zero (.inr ⟨j, hd⟩)
      · exact absurd hq₁ (hflat k q hk (Slot.isTable_of_child hd))
    · exact hzero hd (h.closed hd hq₁)
  · rcases Index.sector_cut_cases (ι := ι) (p := p) (i := i) (c := c) (s := .data b) with he | he
    · exact he
    · rw [he]
      exact h.bounded hb
  · rw [hold hs, hold hs'] at he
    exact h.distinct (hcut.1 hs).1 (hcut.1 hs').1 he
  · have hsp : s ≠ p := by
      rintro rfl
      exact hn hbuf
    rw [hold hs, Index.table_cut hsp, hstore _ (h.notOwn (hcut.1 hs).1) (hne hs)]
    exact h.stored hst (hcut.1 hs).1 hn
  · rw [hold hs, hbits hs]
    exact h.taken (hcut.1 hs).1
  · rw [hold hs, hmap, Bitmap.bitCnt_setMultiple]
    exact h.inRange (hcut.1 hs).1
  · rw [hold hs]
    exact h.notOwn (hcut.1 hs).1

end Step

/-- Only data blocks under `p` differ. -/
structure SameTables (p : Slot) (ι ι' : Index) : Prop where
  sector : ∀ {s}, s.IsTable → ι'.sector s = ι.sector s
  table : ∀ {s}, s.IsTable → s ≠ p → ι'.table s = ι.table s

theorem SameTables.refl (p : Slot) (ι : Index) : SameTables p ι ι := ⟨fun _ => rfl, fun _ _ => rfl⟩

theorem SameTables.trans {p : Slot} {ι ι' ι'' : Index} (h : SameTables p ι ι')
    (h' : SameTables p ι' ι'') : SameTables p ι ι'' :=
  ⟨fun hs => (h'.sector hs).trans (h.sector hs), fun hs hp => (h'.table hs hp).trans (h.table hs hp)⟩

theorem SameTables.has_iff {p s : Slot} {ι ι' : Index} (h : SameTables p ι ι') (hs : s.IsTable) :
    ι'.Has s ↔ ι.Has s := by
  unfold Index.Has
  rw [h.sector hs]

theorem SameTables.has {p s : Slot} {ι ι' : Index} (h : SameTables p ι ι') (hs : s.IsTable)
    (hhas : ι.Has s) : ι'.Has s :=
  (h.has_iff hs).2 hhas

/-- The inode `d` in sector `root` has an index that lies on the sectors. -/
theorem indexed_indexOf {own : Set BlockSector} {σ : FsState} {root : BlockSector} {d : Sector}
    (distinct : ∀ {s s'}, (indexOf σ.store root d).Has s → (indexOf σ.store root d).Has s' →
      nodeSector σ.store root d s = nodeSector σ.store root d s' → s = s')
    (taken : ∀ {s}, (indexOf σ.store root d).Has s →
      σ.freeMap.bits (nodeSector σ.store root d s).toNat = true)
    (inRange : ∀ {s}, (indexOf σ.store root d).Has s →
      (nodeSector σ.store root d s).toNat < σ.freeMap.bitCnt)
    (notOwn : ∀ {s}, (indexOf σ.store root d).Has s → nodeSector σ.store root d s ∉ own) :
    Indexed own {.root} σ (indexOf σ.store root d) where
  shown := indexOf_shown
  closed := indexOf_closed
  bounded := @nodeSector_data_of_le σ.store root d
  distinct := distinct
  stored := fun {s} _ _ hn => (indexOf_table_of_ne fun he => hn (he ▸ Set.mem_singleton s)).symm
  taken := taken
  inRange := inRange
  notOwn := notOwn

/-- **An index is what its sectors say.** -/
theorem Indexed.nodeSector_eq {own : Set BlockSector} {σ : FsState} {ι : Index}
    (h : Indexed own {.root} σ ι) {store : BlockSector → Sector} {d : Sector}
    (hd : ∀ i : Fin 128, i.val < 14 → d.word i = (ι.table .root).word i)
    (hstore : ∀ {s}, s.IsTable → s ≠ .root → ι.Has s → store (ι.sector s) = σ.store (ι.sector s))
    (s : Slot) : nodeSector store (ι.sector .root) d s = ι.sector s := by
  have hroot : ∀ {c i}, Slot.root.child i = some c →
      nodeSector store (ι.sector .root) d c = ι.sector c := by
    intro c i hc
    rw [nodeSector_root_child hc, hd i (Growing.root_child_lt hc), h.shown hc ι.has_root]
  have hunder : ∀ {p c i}, Slot.child p i = some c → p ≠ .root →
      nodeSector store (ι.sector .root) d p = ι.sector p →
      nodeSector store (ι.sector .root) d c = ι.sector c := by
    intro p c i hc hp hsector
    rw [nodeSector_child hc hp, hsector, tableEntry]
    split_ifs with hzero
    · exact (h.closed hc fun hhas => (hhas.resolve_left hp) hzero).symm
    · have hpt := Slot.isTable_of_child hc
      rw [hstore hpt hp (.inr hzero), h.stored hpt (.inr hzero) (by simpa using hp),
        h.shown hc (.inr hzero)]
  have hind := hroot (i := 12) (c := .indirect) (by simp [Slot.child])
  have hdbl := hroot (i := 13) (c := .doubly) (by simp [Slot.child])
  have htab : ∀ i, nodeSector store (ι.sector .root) d (.table i) = ι.sector (.table i) :=
    fun i => hunder (p := .doubly) (i := i) rfl (by simp) hdbl
  cases s with
  | root => rfl
  | indirect => exact hind
  | doubly => exact hdbl
  | table i => exact htab i
  | data b =>
    rcases Nat.lt_or_ge b 12 with h₁ | h₁
    · exact hroot (i := ⟨b, by omega⟩) (if_pos h₁)
    rcases Nat.lt_or_ge b 140 with h₂ | h₂
    · refine hunder (p := .indirect) (i := ⟨b - 12, by omega⟩) ?_ (by simp) hind
      refine congrArg (fun n => some (Slot.data n)) ?_
      show 12 + (b - 12) = b
      omega
    rcases Nat.lt_or_ge b capacity with h₃ | h₃
    · unfold capacity at h₃
      refine hunder (p := .table ⟨(b - 140) / 128, by omega⟩) (i := ⟨(b - 140) % 128, by omega⟩) ?_
        (by simp) (htab _)
      refine congrArg (fun n => some (Slot.data n)) ?_
      show 140 + 128 * ((b - 140) / 128) + (b - 140) % 128 = b
      omega
    · rw [nodeSector_data_of_le h₃, h.bounded h₃]

/-- `byte_to_sector` goes the way of the index where there is a block. -/
theorem indexPath_nodeSector {store : BlockSector → Sector} {root : BlockSector} {b : ℕ}
    (h : nodeSector store root (store root) (.data b) ≠ 0) :
    indexPath store root b = some (nodeSector store root (store root) (.data b)) := by
  rcases Nat.lt_or_ge b 12 with h₁ | h₁
  · rw [indexPath_direct store root h₁]
    simp only [nodeSector, h₁, dif_pos]
  have h₁' : ¬b < 12 := not_lt.2 h₁
  rcases Nat.lt_or_ge b 140 with h₂ | h₂
  · simp only [nodeSector, h₁', h₂, dif_neg, dif_pos, not_false_eq_true, tableEntry] at h ⊢
    split_ifs at h ⊢ with hzero
    · exact absurd rfl h
    · exact indexPath_indirect store root h₁' h₂
  have h₂' : ¬b < 140 := not_lt.2 h₂
  rcases Nat.lt_or_ge ((b - 140) / 128) 128 with h₃ | h₃
  · simp only [nodeSector, h₁', h₂', h₃, dif_neg, dif_pos, not_false_eq_true, tableEntry] at h ⊢
    by_cases hdbl : (store root).doublyIndirect = 0
    · simp [hdbl] at h
    · simp only [if_neg hdbl] at h ⊢
      split_ifs at h ⊢ with htab
      · exact absurd rfl h
      · exact indexPath_doubly store root h₂' h₃
  · refine absurd (nodeSector_data_of_le ?_) h
    unfold capacity
    omega

end Filesys
end CS162

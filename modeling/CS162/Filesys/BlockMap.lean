/-
# The index tree of a file

`projects1-3/src/filesys/inode.c`, lines 190-235 and 309-408.

The sectors of a file are the nodes of a tree: the inode's own sector, the
indirect block, the doubly indirect block, the index blocks under it, and the
data blocks.  `Slot` names the nodes and `Slot.child` says which entry of which
index block stands for which node; a file of `blocks` data blocks uses the index
blocks `tables blocks`.  `byte_to_sector` follows the entries from the inode to
a data block (`indexPath_eq`).
-/

import Mathlib.Algebra.GroupWithZero.Nat
import Mathlib.Data.Finset.Card
import Mathlib.Data.Fintype.Card
import CS162.Basis.TableTree
import CS162.Filesys.InodeDisk

namespace CS162
namespace Filesys

open CS162.Basis

/-- A node of the index tree. -/
inductive Slot where
  /-- The inode. -/
  | root
  | indirect
  | doubly
  /-- The index block under entry `i` of the doubly indirect block. -/
  | table (i : Fin 128)
  /-- Data block `b`. -/
  | data (b : ℕ)
  deriving DecidableEq

/-- The data blocks the index tree has entries for: `12 + 128 + 128 * 128`. -/
def capacity : ℕ := 16524

namespace Slot

/-- The node entry `i` of a node's sector stands for. -/
def child : Slot → Fin 128 → Option Slot
  | root, i =>
    if i.val < 12 then some (data i.val)
    else if i.val = 12 then some indirect
    else if i.val = 13 then some doubly
    else none
  | indirect, i => some (data (12 + i.val))
  | doubly, i => some (table i)
  | table i, j => some (data (140 + 128 * i.val + j.val))
  | data _, _ => none

/-- A file of `blocks` data blocks has this index block. -/
def Open (blocks : ℕ) : Slot → Prop
  | root => True
  | indirect => 12 < blocks
  | doubly => 140 < blocks
  | table i => 140 + 128 * i.val < blocks
  | data _ => False

instance (blocks : ℕ) (s : Slot) : Decidable (s.Open blocks) := by
  cases s <;> unfold Open <;> infer_instance

/-- The entry a node stands under. -/
def parent : Slot → Option (Slot × ℕ)
  | root => none
  | indirect => some (root, 12)
  | doubly => some (root, 13)
  | table i => some (doubly, i.val)
  | data b =>
    if b < 12 then some (root, b)
    else if b < 140 then some (indirect, b - 12)
    else some (table (Fin.ofNat 128 ((b - 140) / 128)), (b - 140) % 128)

/-- A slot's parent is the table whose child it is. -/
theorem parent_eq_of_child {p : Slot} {i : Fin 128} {c : Slot} (h : child p i = some c) :
    parent c = some (p, i.val) := by
  have hi := i.isLt
  cases p with
  | root =>
    simp only [child] at h
    split_ifs at h with h₁ h₂ h₃
    · obtain rfl := Option.some.inj h
      simp [parent, h₁]
    · obtain rfl := Option.some.inj h
      simp [parent, h₂]
    · obtain rfl := Option.some.inj h
      simp [parent, h₃]
  | indirect =>
    obtain rfl := Option.some.inj h
    have h₁ : ¬12 + i.val < 12 := by omega
    have h₂ : 12 + i.val < 140 := by omega
    simp [parent, h₁, h₂]
  | doubly =>
    obtain rfl := Option.some.inj h
    rfl
  | table k =>
    obtain rfl := Option.some.inj h
    have hk := k.isLt
    have h₁ : ¬140 + 128 * k.val + i.val < 12 := by omega
    have h₂ : ¬140 + 128 * k.val + i.val < 140 := by omega
    have hdiv : (140 + 128 * k.val + i.val - 140) / 128 = k.val := by omega
    have hmod : (140 + 128 * k.val + i.val - 140) % 128 = i.val := by omega
    have hfin : Fin.ofNat 128 k.val = k := Fin.ext (Nat.mod_eq_of_lt hk)
    rw [parent, if_neg h₁, if_neg h₂, hdiv, hmod, hfin]
  | data b => cases h

/-- Every node stands under one entry. -/
theorem child_inj (p : Slot) (i : Fin 128) (p' : Slot) (i' : Fin 128) (c : Slot)
    (h : child p i = some c) (h' : child p' i' = some c) : p = p' ∧ i = i' := by
  have heq := (parent_eq_of_child h).symm.trans (parent_eq_of_child h')
  obtain ⟨hp, hi⟩ := Prod.mk.inj (Option.some.inj heq)
  exact ⟨hp, Fin.ext hi⟩

end Slot

theorem directIndices_range : directIndices.map Fin.val = List.range' 0 12 := by decide

theorem directIndices_child :
    ∀ j ∈ directIndices, Slot.root.child j = some (.data (0 + j.val)) := by
  intro j hj
  have hj' : j.val ∈ List.range' 0 12 := directIndices_range ▸ List.mem_map_of_mem hj
  have hlt := List.mem_range'_1.1 hj'
  rw [Nat.zero_add]
  exact if_pos (by omega)

/-- The entries from `k` on are `k` and those from the next one on. -/
theorem map_val_cons {a : Fin 128} {is : List (Fin 128)} {k n : ℕ}
    (h : (a :: is).map Fin.val = List.range' k n) :
    ∃ m, n = m + 1 ∧ a.val = k ∧ is.map Fin.val = List.range' (k + 1) m := by
  cases n with
  | zero => cases h
  | succ m =>
    rw [List.map_cons, List.range'_succ] at h
    exact ⟨m, rfl, List.cons.inj h⟩

/-- The index blocks of a file of `blocks` data blocks. -/
def tables (blocks : ℕ) : Finset Slot :=
  ({.root, .indirect, .doubly} ∪ Finset.univ.image Slot.table).filter (Slot.Open blocks)

theorem mem_tables {blocks : ℕ} {s : Slot} : s ∈ tables blocks ↔ s.Open blocks := by
  rw [tables, Finset.mem_filter, Finset.mem_union]
  refine ⟨fun h => h.2, fun h => ⟨?_, h⟩⟩
  cases s with
  | root => exact .inl (by simp)
  | indirect => exact .inl (by simp)
  | doubly => exact .inl (by simp)
  | table i => exact .inr (Finset.mem_image_of_mem _ (Finset.mem_univ i))
  | data b => exact h.elim

/-- Fewer blocks have fewer index blocks. -/
theorem tables_subset {m m' : ℕ} (h : m ≤ m') : tables m ⊆ tables m' := by
  intro s hs
  rw [mem_tables] at hs ⊢
  cases s <;> simp only [Slot.Open] at hs ⊢ <;> omega

/-- The nodes of the index tree of a file of `blocks` data blocks, the inode
among them. -/
def slots (blocks : ℕ) : ℕ := blocks + (tables blocks).card

/-- A file without data blocks has its inode only. -/
theorem tables_zero : tables 0 = {.root} := by
  ext s
  rw [mem_tables, Finset.mem_singleton]
  cases s <;> simp [Slot.Open]

theorem slots_zero : slots 0 = 1 := by
  rw [slots, tables_zero, Finset.card_singleton]

/-- A file has at most `131` index blocks, the inode among them. -/
theorem slots_le (blocks : ℕ) : slots blocks ≤ blocks + 131 := by
  have himage : (Finset.univ.image Slot.table).card ≤ 128 :=
    Finset.card_image_le.trans (by rw [Finset.card_univ, Fintype.card_fin])
  have hthree : ({.root, .indirect, .doubly} : Finset Slot).card ≤ 3 := Finset.card_le_three
  have hfilter : (tables blocks).card ≤ 3 + 128 :=
    (Finset.card_filter_le _ _).trans
      ((Finset.card_union_le _ _).trans (Nat.add_le_add hthree himage))
  unfold slots
  omega

/-- The index tree of a file: its tables, the sectors of its nodes, how many data
blocks it has and which index blocks. -/
structure Tree where
  table : Slot → Sector
  sector : Slot → BlockSector
  blocks : ℕ
  tables : Finset Slot

namespace Tree

/-- The nodes in use. -/
def live (t : Tree) : Set Slot := fun s => s ∈ t.tables ∨ ∃ b < t.blocks, s = .data b

/-- The number of nodes in use. -/
def used (t : Tree) : ℕ := t.blocks + t.tables.card

/-- The tables show the nodes in use. -/
def Linked (t : Tree) : Prop :=
  Basis.Linked Slot.child 0 (fun s => (t.table s).word) t.sector t.live

/-- Data block `blocks` is put under entry `i` of `p`. -/
def addData (t : Tree) (p : Slot) (i : Fin 128) (v : BlockSector) : Tree :=
  { t with
    table := Function.update t.table p ((t.table p).setWord i v)
    sector := Function.update t.sector (.data t.blocks) v
    blocks := t.blocks + 1 }

/-- Index block `c` is put, zeroed, under entry `i` of `p`. -/
def addTable (t : Tree) (p : Slot) (i : Fin 128) (c : Slot) (v : BlockSector) : Tree :=
  { t with
    table := Function.update (Function.update t.table c Sector.zero) p ((t.table p).setWord i v)
    sector := Function.update t.sector c v
    tables := insert c t.tables }

theorem mem_live_data {t : Tree} {b : ℕ} (h : .data b ∉ t.tables) :
    Slot.data b ∈ t.live ↔ b < t.blocks := by
  constructor
  · rintro (hmem | ⟨b', hb', heq⟩)
    · exact absurd hmem h
    · obtain rfl := Slot.data.inj heq
      exact hb'
  · exact fun hb => .inr ⟨b, hb, rfl⟩

theorem mem_live_of_not_data {t : Tree} {s : Slot} (h : ∀ b, s ≠ .data b) :
    s ∈ t.live ↔ s ∈ t.tables := by
  constructor
  · rintro (hmem | ⟨b, -, rfl⟩)
    · exact hmem
    · exact absurd rfl (h b)
  · exact .inl

theorem live_addData (t : Tree) (p : Slot) (i : Fin 128) (v : BlockSector) :
    (t.addData p i v).live = insert (.data t.blocks) t.live := by
  ext s
  constructor
  · rintro (h | ⟨b, hb, rfl⟩)
    · exact .inr (.inl h)
    · rcases Nat.lt_succ_iff_lt_or_eq.1 hb with hb | rfl
      · exact .inr (.inr ⟨b, hb, rfl⟩)
      · exact .inl rfl
  · rintro (rfl | h | ⟨b, hb, rfl⟩)
    · exact .inr ⟨t.blocks, Nat.lt_succ_self _, rfl⟩
    · exact .inl h
    · exact .inr ⟨b, hb.trans (Nat.lt_succ_self _), rfl⟩

theorem live_addTable (t : Tree) (p : Slot) (i : Fin 128) (c : Slot) (v : BlockSector) :
    (t.addTable p i c v).live = insert c t.live := by
  ext s
  constructor
  · rintro (h | h)
    · rcases Finset.mem_insert.1 h with rfl | h
      · exact .inl rfl
      · exact .inr (.inl h)
    · exact .inr (.inr h)
  · rintro (rfl | h | h)
    · exact .inl (Finset.mem_insert_self _ _)
    · exact .inl (Finset.mem_insert_of_mem h)
    · exact .inr h

/-- The words of a table with one entry set. -/
theorem word_update (f : Slot → Sector) (p : Slot) (i : Fin 128) (v : BlockSector) :
    (fun s => (Function.update f p ((f p).setWord i v) s).word) =
      Function.update (fun s => (f s).word) p (Function.update (f p).word i v) := by
  funext s j
  by_cases hs : s = p
  · subst hs
    rw [Function.update_self, Function.update_self, Sector.word_setWord, Function.update_apply]
    simp only [eq_comm]
  · rw [Function.update_of_ne hs, Function.update_of_ne hs]

theorem Linked.addData {t : Tree} (h : t.Linked) {p : Slot} {i : Fin 128} (v : BlockSector)
    (hp : p ∈ t.tables) (hc : p.child i = some (.data t.blocks))
    (hno : .data t.blocks ∉ t.tables) : (t.addData p i v).Linked := by
  have hnew : Slot.data t.blocks ∉ t.live := by
    rw [mem_live_data hno]
    exact lt_irrefl _
  have hadd := Basis.Linked.add Slot.child_inj h (.inl hp) hc hnew (fun j d hd => by cases hd) v
  unfold Tree.Linked
  rw [live_addData]
  rw [← word_update] at hadd
  exact hadd

/-- A new table keeps the tree linked. -/
theorem Linked.addTable {t : Tree} (h : t.Linked) {p c : Slot} {i : Fin 128} (v : BlockSector)
    (hp : p ∈ t.tables) (hc : p.child i = some c) (hnew : c ∉ t.live)
    (hchild : ∀ j d, c.child j = some d → d ∉ t.live) : (t.addTable p i c v).Linked := by
  have hpc : p ≠ c := fun he => hnew (he ▸ .inl hp)
  have hzero : Basis.Linked Slot.child 0
      (fun s => (Function.update t.table c Sector.zero s).word) t.sector t.live := by
    refine h.congr (fun q hq => ?_) fun _ _ => rfl
    rw [Function.update_of_ne]
    rintro rfl
    exact hnew hq
  have hadd := Basis.Linked.add Slot.child_inj hzero (.inl hp) hc hnew (fun j d hd => ?_) v
  · unfold Tree.Linked
    rw [live_addTable]
    have hword := word_update (Function.update t.table c Sector.zero) p i v
    rw [← hword, Function.update_of_ne hpc] at hadd
    exact hadd
  · simp only [Function.update_self]
    exact ⟨Sector.word_zero j, hchild j d hd⟩

/-- The entry that stands for a node in use is its sector. -/
theorem Linked.word_eq {t : Tree} (h : t.Linked) {p c : Slot} {i : Fin 128} (hp : p ∈ t.tables)
    (hc : p.child i = some c) (hlive : c ∈ t.live) : (t.table p).word i = t.sector c :=
  h.used p i c (.inl hp) hc hlive

/-- The entry that stands for a node not in use is `0`. -/
theorem Linked.word_eq_zero {t : Tree} (h : t.Linked) {p c : Slot} {i : Fin 128} (hp : p ∈ t.tables)
    (hc : p.child i = some c) (hlive : c ∉ t.live) : (t.table p).word i = 0 :=
  h.unused p i c (.inl hp) hc hlive

/-- **The index path of `byte_to_sector` leads to the data block.** -/
theorem indexPath_eq {t : Tree} (h : t.Linked) (htables : t.tables = Filesys.tables t.blocks)
    {store : BlockSector → Sector} (hstore : ∀ s ∈ t.tables, store (t.sector s) = t.table s)
    {b : ℕ} (hb : b < t.blocks) (hcap : t.blocks ≤ capacity) :
    indexPath store (t.sector .root) b = some (t.sector (.data b)) := by
  have hopen : ∀ {s : Slot}, s.Open t.blocks → s ∈ t.tables := fun hs => by
    rw [htables]
    exact mem_tables.2 hs
  have hdata : Slot.data b ∈ t.live := .inr ⟨b, hb, rfl⟩
  have hroot : Slot.root ∈ t.tables := hopen trivial
  unfold capacity at hcap
  rcases Nat.lt_or_ge b 12 with h₁ | h₁
  · rw [indexPath_direct store _ h₁, hstore .root hroot]
    refine congrArg some (h.word_eq hroot ?_ hdata)
    simp only [Slot.child, if_pos h₁]
  rcases Nat.lt_or_ge b 140 with h₂ | h₂
  · have hind : Slot.indirect ∈ t.tables := hopen (by show 12 < t.blocks; omega)
    have hentry : (t.table .root).indirect = t.sector .indirect :=
      h.word_eq hroot (i := 12) (by simp [Slot.child]) (.inl hind)
    rw [indexPath_indirect store _ (by omega) h₂, hstore .root hroot, hentry, hstore _ hind]
    refine congrArg some (h.word_eq hind ?_ hdata)
    have hb : 12 + (b - 12) = b := by omega
    simp only [Slot.child, hb]
  · have h₃ : (b - 140) / 128 < 128 := by omega
    have hdbl : Slot.doubly ∈ t.tables := hopen (by show 140 < t.blocks; omega)
    have hdblEntry : (t.table .root).doublyIndirect = t.sector .doubly :=
      h.word_eq hroot (i := 13) (by simp [Slot.child]) (.inl hdbl)
    have htab : Slot.table ⟨(b - 140) / 128, h₃⟩ ∈ t.tables := hopen (by
      show 140 + 128 * ((b - 140) / 128) < t.blocks
      omega)
    have htabEntry : (t.table .doubly).word ⟨(b - 140) / 128, h₃⟩ =
        t.sector (.table ⟨(b - 140) / 128, h₃⟩) := h.word_eq hdbl rfl (.inl htab)
    rw [indexPath_doubly store _ (by omega) h₃, hstore .root hroot, hdblEntry, hstore _ hdbl,
      htabEntry, hstore _ htab]
    refine congrArg some (h.word_eq htab ?_ hdata)
    have hb : 140 + 128 * ((b - 140) / 128) + (b - 140) % 128 = b := by omega
    simp only [Slot.child, hb]

end Tree

end Filesys
end CS162

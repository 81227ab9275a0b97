/-
# The block map over calls of `allocate_blocks`

`projects1-3/src/filesys/inode.c`, lines 190-235 and 309-408.

An inode without blocks is given blocks by any number of calls of
`allocate_blocks`, and stored after each.  Every call restarts where the one
before stopped, and `byte_to_sector` finds the blocks: its index path maps the
block numbers to distinct sectors that were free before, none of them an index
block, and no later call changes where a block is.
-/

import CS162.Filesys.Format

namespace CS162
namespace Filesys

open CS162.Basis

/-- A call of `allocate_blocks` that returns true, the inode being stored in
`root` after it. -/
def Allocates (root : BlockSector) (blocks : ℕ) (s s' : Sector × FsState) : Prop :=
  ∃ σ₁, (allocateBlocks s.1 blocks).run s.2 = some ((true, s'.1), σ₁) ∧
    (writeSector root s'.1).run σ₁ = some (⟨⟩, s'.2)

/-- Such calls one after the other. -/
inductive AllocatesAll (root : BlockSector) :
    List ℕ → Sector × FsState → Sector × FsState → Prop
  | nil (s : Sector × FsState) : AllocatesAll root [] s s
  | cons {k : ℕ} {ks : List ℕ} {s s' s'' : Sector × FsState} (head : Allocates root k s s')
      (tail : AllocatesAll root ks s' s'') : AllocatesAll root (k :: ks) s s''

/-- The sectors of the inode at `root` that hold no data: its own and its index
blocks. -/
def indexBlocks (store : BlockSector → Sector) (root : BlockSector) : Set BlockSector := fun x =>
  x = root ∨ x ≠ 0 ∧ (x = (store root).indirect ∨ x = (store root).doublyIndirect ∨
    (store root).doublyIndirect ≠ 0 ∧ ∃ i, x = (store (store root).doublyIndirect).word i)

/-- The index blocks are nodes of the tree. -/
theorem mem_indexBlocks {σ : FsState} {t : Tree} (hlinked : t.Linked) (hroot : .root ∈ t.tables)
    (hstore : ∀ s ∈ t.tables, σ.store (t.sector s) = t.table s) {x : BlockSector}
    (hx : x ∈ indexBlocks σ.store (t.sector .root)) : ∃ s ∈ t.tables, t.sector s = x := by
  -- an entry that is not `0` stands for a node in use
  have hentry : ∀ {p c : Slot} {i : Fin 128}, p ∈ t.tables → p.child i = some c →
      (∀ b, c ≠ .data b) → (t.table p).word i ≠ 0 →
      c ∈ t.tables ∧ t.sector c = (t.table p).word i := by
    intro p c i hp hc hcd hne
    have hlive : c ∈ t.live := by
      by_contra hno
      exact hne (hlinked.word_eq_zero hp hc hno)
    exact ⟨(Tree.mem_live_of_not_data hcd).1 hlive, (hlinked.word_eq hp hc hlive).symm⟩
  have hdoubly : (t.table .root).doublyIndirect ≠ 0 →
      .doubly ∈ t.tables ∧ t.sector .doubly = (t.table .root).doublyIndirect :=
    fun hne => hentry hroot (i := 13) (by simp [Slot.child]) (by simp) hne
  unfold indexBlocks at hx
  rcases hx with rfl | ⟨hne, hx⟩
  · exact ⟨.root, hroot, rfl⟩
  rw [hstore .root hroot] at hx
  rcases hx with rfl | rfl | ⟨hd, i, rfl⟩
  · obtain ⟨hmem, hsec⟩ := hentry hroot (i := 12) (c := .indirect) (by simp [Slot.child]) (by simp) hne
    exact ⟨.indirect, hmem, hsec⟩
  · obtain ⟨hmem, hsec⟩ := hdoubly hne
    exact ⟨.doubly, hmem, hsec⟩
  · obtain ⟨hmem, hsec⟩ := hdoubly hd
    rw [← hsec, hstore .doubly hmem] at hne ⊢
    obtain ⟨hmem', hsec'⟩ := hentry (c := .table i) hmem rfl (by simp) hne
    exact ⟨.table i, hmem', hsec'⟩

section Runs

variable {fm : Tree} {root : BlockSector}

/-- The inode `s.1` and the sectors `s.2` between two calls. -/
structure Between (fm : Tree) (root : BlockSector) (s : Sector × FsState) (t : Tree) : Prop where
  placed : Placed {.root} s.2 t
  claimed : Claimed fm.sectors s.2 t
  reserved : Reserved fm.sectors s.2
  file : FreeMapFile fm none s.2
  tables : t.tables = tables t.blocks
  capacity : t.blocks ≤ capacity
  inode : t.table .root = s.1
  sector : t.sector .root = root
  stored : t.blocks = 0 ∨ s.2.store root = s.1

/-- **One call.** -/
theorem Allocates.between {blocks : ℕ} {s s' : Sector × FsState} {t : Tree}
    (h : Allocates root blocks s s') (hb : Between fm root s t) (hcap : t.blocks + blocks ≤ capacity) :
    ∃ t', Between fm root s' t' ∧ t'.blocks = t.blocks + blocks ∧ Grown s.2 t s'.2 t' := by
  obtain ⟨d, σ⟩ := s
  obtain ⟨d', σ'⟩ := s'
  obtain ⟨σ₁, hrun, hwrite⟩ := h
  obtain rfl : t.table .root = d := hb.inode
  have hgrow : Growing fm.sectors (FreeMapFile fm none) σ t {.root} σ t :=
    .refl hb.placed hb.claimed hb.file hb.reserved
  obtain ⟨t₁, buf, hs⟩ := (allocateBlocksWith_returns (bitmapWrites fm none) hgrow hb.tables
    hb.capacity blocks).of_run hrun
  obtain ⟨rfl, htables, hge, hle⟩ := hs.done rfl
  have hσ' : σ' = { σ₁ with store := Function.update σ₁.store root d' } :=
    (Prod.mk.inj (Option.some.inj hwrite)).2.symm
  subst hσ'
  have hd : d' = t₁.table .root := hs.root
  have hroot : t₁.sector .root = root := (hs.growing.keep .root (.inl hb.placed.root)).trans hb.sector
  have hnotOwn := hs.growing.claimed.notOwn .root (.inl hs.growing.placed.root)
  rw [hroot] at hnotOwn
  have hother : ∀ s ∈ t₁.tables, s ≠ .root → t₁.sector s ≠ root := by
    intro s hs' hne he
    rw [← hroot] at he
    exact hne (hs.growing.placed.distinct s (.inl hs') _ (.inl hs.growing.placed.root) he)
  have hsame : Same σ₁ { σ₁ with store := Function.update σ₁.store root d' } :=
    ⟨rfl, rfl, rfl, rfl, rfl, id⟩
  refine ⟨t₁, ⟨hs.growing.placed.congr fun s hs' hn => Function.update_of_ne (hother s hs' hn) _ _,
    ⟨hs.growing.claimed.nonzero, hs.growing.claimed.taken, hs.growing.claimed.notOwn⟩, ⟨?_, ?_⟩, ?_,
    htables, by omega, hd.symm, hroot, .inr (Function.update_self ..)⟩, by omega,
    hs.growing.toGrown.congr rfl rfl (hs.growing.same.trans hsame)⟩
  · exact (hs.growing.bits _).2 (.inl hb.reserved.zero)
  · exact fun x hx => (hs.growing.bits _).2 (.inl (hb.reserved.own x hx))
  · refine (bitmapWrites fm none).stable hs.growing.inv hsame fun x hx => ?_
    refine Function.update_of_ne ?_ _ _
    rintro rfl
    exact hnotOwn hx

/-- **Any number of calls.**  By induction on the calls. -/
theorem AllocatesAll.between {ks : List ℕ} {s s' : Sector × FsState}
    (h : AllocatesAll root ks s s') : ∀ {t : Tree}, Between fm root s t →
      t.blocks + ks.sum ≤ capacity →
      ∃ t', Between fm root s' t' ∧ t'.blocks = t.blocks + ks.sum ∧ Grown s.2 t s'.2 t' := by
  induction h with
  | nil s => exact fun hb _ => ⟨_, hb, rfl, .refl _ _⟩
  | cons head _ ih =>
    intro t hb hcap
    rw [List.sum_cons] at hcap ⊢
    obtain ⟨t₁, hb₁, hblocks₁, hgrown₁⟩ := head.between hb (by omega)
    obtain ⟨t₂, hb₂, hblocks₂, hgrown₂⟩ := ih hb₁ (by omega)
    exact ⟨t₂, hb₂, by omega, hgrown₁.trans hb₁.tables hgrown₂⟩

/-- **The index path between two calls.** -/
theorem Between.indexPath {s : Sector × FsState} {t : Tree} (h : Between fm root s t) {b : ℕ}
    (hb : b < t.blocks) : indexPath s.2.store root b = some (t.sector (.data b)) := by
  have hstore : s.2.store root = s.1 := h.stored.resolve_left (by omega)
  rw [← h.sector]
  refine t.indexPath_eq h.placed.linked h.tables (fun p hp => ?_) hb h.capacity
  by_cases hroot : p = .root
  · rw [hroot, h.sector, h.inode, hstore]
  · exact h.placed.stored p hp hroot

/-- An inode none of whose entries is set. -/
theorem Between.new {σ : FsState} {d : Sector} (hfile : FreeMapFile fm none σ)
    (hr : Reserved fm.sectors σ) (htaken : σ.freeMap.bits root.toNat = true)
    (hown : root ∉ fm.sectors) (hd : ∀ i : Fin 128, i.val < 14 → d.word i = 0) :
    Between fm root (d, σ) (Tree.new root d) := by
  have hgrow : Growing fm.sectors (FreeMapFile fm none) σ (Tree.new root d) {.root} σ
      (Tree.new root d) := .new hfile hr htaken hown hd
  exact ⟨hgrow.placed, hgrow.claimed, hr, hfile, rfl, Nat.zero_le _, rfl, rfl, .inl rfl⟩

/-- With memory and sectors, a call returns true. -/
theorem Between.allocates {s : Sector × FsState} {t : Tree} (h : Between fm root s t) {blocks : ℕ}
    (henough : Enough s.2 t.blocks (t.blocks + blocks)) : ∃ s', Allocates root blocks s s' := by
  have hgrow : Growing fm.sectors (FreeMapFile fm none) s.2 t {.root} s.2 t :=
    .refl h.placed h.claimed h.file h.reserved
  obtain ⟨⟨ok, d⟩, σ₁, hrun, t₁, buf, hs⟩ := allocateBlocksWith_returns (bitmapWrites fm none) hgrow
    h.tables h.capacity blocks
  have hused : t.used = slots t.blocks := by rw [Tree.used, h.tables, slots]
  obtain rfl : ok = true := hs.ok_of_enough henough.1 (by rw [hused]; exact henough.2)
  rw [h.inode] at hrun
  exact ⟨(d, { σ₁ with store := Function.update σ₁.store root d }), σ₁, hrun, rfl⟩

/-- **The block map of `allocate_blocks` is the one `byte_to_sector` reads.**  From
an inode without blocks, calls for `ks` and then for `ks'` blocks leave an index
path that maps the block numbers so far to distinct sectors, not `0` and none of
them an index block; the calls for `ks'` change it at no earlier block number and
take sectors that were free when they began. -/
theorem allocateBlocks_indexPath {σ : FsState} {d : Sector} (hfile : FreeMapFile fm none σ)
    (hr : Reserved fm.sectors σ) (htaken : σ.freeMap.bits root.toNat = true)
    (hown : root ∉ fm.sectors) (hd : ∀ i : Fin 128, i.val < 14 → d.word i = 0) {ks ks' : List ℕ}
    {s s' : Sector × FsState} (hrun : AllocatesAll root ks (d, σ) s)
    (hrun' : AllocatesAll root ks' s s') (hcap : ks.sum + ks'.sum ≤ 12 + 128 + 128 * 128) :
    ∃ sector : ℕ → BlockSector,
      (∀ b < ks.sum + ks'.sum, indexPath s'.2.store root b = some (sector b) ∧ sector b ≠ 0 ∧
        sector b ∉ indexBlocks s'.2.store root) ∧
      (∀ b < ks.sum + ks'.sum, ∀ b' < ks.sum + ks'.sum, sector b = sector b' → b = b') ∧
      (∀ b < ks.sum, indexPath s.2.store root b = some (sector b)) ∧
      ∀ b, ks.sum ≤ b → b < ks.sum + ks'.sum → (sector b).toNat ∈ s.2.freeMap.free := by
  have hcapacity : capacity = 16524 := rfl
  have hzero : (Tree.new root d).blocks = 0 := rfl
  obtain ⟨t, hb, hblocks, -⟩ := hrun.between (.new hfile hr htaken hown hd) (by omega)
  obtain ⟨t', hb', hblocks', hgrown⟩ := hrun'.between hb (by omega)
  have hlive : ∀ {b}, b < ks.sum + ks'.sum → Slot.data b ∈ t'.live :=
    fun hlt => .inr ⟨_, by omega, rfl⟩
  refine ⟨fun b => t'.sector (.data b), fun b hlt => ⟨hb'.indexPath (by omega),
    hb'.claimed.nonzero _ (hlive hlt) (by simp), fun hmem => ?_⟩, fun b hlt b' hlt' he => ?_,
    fun b hlt => ?_, fun b hge hlt => ?_⟩
  · have hstore : s'.2.store root = s'.1 := hb'.stored.resolve_left (by omega)
    rw [← hb'.sector] at hmem
    obtain ⟨p, hp, hsec⟩ := mem_indexBlocks hb'.placed.linked hb'.placed.root
      (fun p hp => by
        by_cases hroot : p = .root
        · rw [hroot, hb'.sector, hb'.inode, hstore]
        · exact hb'.placed.stored p hp hroot) hmem
    obtain rfl := hb'.placed.distinct p (.inl hp) _ (hlive hlt) hsec
    exact hb'.placed.noData b hp
  · exact Slot.data.inj (hb'.placed.distinct _ (hlive hlt) _ (hlive hlt') he)
  · have hlive₁ : Slot.data b ∈ t.live := .inr ⟨b, by omega, rfl⟩
    show _ = some (t'.sector (.data b))
    rw [hb.indexPath (by omega), hgrown.keep _ hlive₁]
  · refine hgrown.fresh _ (hlive hlt) fun hmem => ?_
    rw [Tree.mem_live_data (hb.placed.noData b)] at hmem
    omega

/-- From an empty inode, `13` blocks and then `130` more: past the direct blocks
with the first call, into the doubly indirect part with the second. -/
theorem allocateBlocks_indexPath_twice :
    ∃ s s', AllocatesAll 1 [13] (Sector.zero, fresh 1024 fun _ => Sector.zero) s ∧
      AllocatesAll 1 [130] s s' ∧ ∃ sector : ℕ → BlockSector,
        (∀ b < 143, indexPath s'.2.store 1 b = some (sector b) ∧ sector b ≠ 0 ∧
          sector b ∉ indexBlocks s'.2.store 1) ∧
        (∀ b < 143, ∀ b' < 143, sector b = sector b' → b = b') ∧
        (∀ b < 13, indexPath s.2.store 1 b = some (sector b)) ∧
        ∀ b, 13 ≤ b → b < 143 → (sector b).toNat ∈ s.2.freeMap.free := by
  have hfile : FreeMapFile (.blank Sector.zero) none (fresh 1024 fun _ => Sector.zero) :=
    freeMapFile_none rfl none
  have hr : Reserved (Tree.blank Sector.zero).sectors (fresh 1024 fun _ => Sector.zero) := reserved_fresh
  have htaken : (fresh 1024 fun _ => Sector.zero).freeMap.bits (1 : BlockSector).toNat = true :=
    (bits_fresh 1).2 (.inl rfl)
  have hmem : (fresh 1024 fun _ => Sector.zero).Memory := memory_fresh
  have hfree : (fresh 1024 fun _ => Sector.zero).freeMap.free.card + 2 = 1024 :=
    card_free_fresh (by decide)
  generalize (fresh 1024 fun _ => Sector.zero) = σ at *
  have hown : (1 : BlockSector) ∉ (Tree.blank Sector.zero).sectors := by simp [Tree.sectors_blank]
  have hd : ∀ i : Fin 128, i.val < 14 → Sector.zero.word i = 0 := fun i _ => Sector.word_zero i
  have hcapacity : capacity = 16524 := rfl
  have hslots := slots_le 13
  have hslots' := slots_le 143
  obtain ⟨t₀, hbetween, hzero⟩ : ∃ t₀, Between (.blank Sector.zero) 1 (Sector.zero, σ) t₀ ∧ t₀.blocks = 0 :=
    ⟨_, .new hfile hr htaken hown hd, rfl⟩
  obtain ⟨s, hs⟩ : ∃ s, Allocates 1 13 (Sector.zero, σ) s := hbetween.allocates
    ⟨hmem, by rw [hzero, Nat.zero_add]; dsimp only; omega⟩
  obtain ⟨t, hb, hblocks, hgrown⟩ := hs.between hbetween (by omega)
  have hblocks' : t.blocks = 13 := by omega
  have hcount := hgrown.count
  have hused : t.used = slots 13 := by rw [Tree.used, hb.tables, hblocks', slots]
  have hroom : slots 143 ≤ s.2.freeMap.free.card + slots 13 := by
    dsimp only at hcount
    omega
  obtain ⟨s', hs'⟩ : ∃ s', Allocates 1 130 s s' := hb.allocates
    ⟨hgrown.same.memory hmem, by rw [hblocks']; exact hroom⟩
  have hrun : AllocatesAll 1 [13] (Sector.zero, σ) s := .cons hs (.nil s)
  have hrun' : AllocatesAll 1 [130] s s' := .cons hs' (.nil s')
  exact ⟨s, s', hrun, hrun', allocateBlocks_indexPath hfile hr htaken hown hd hrun hrun' (by decide)⟩

end Runs

end Filesys
end CS162

/-
# Formatting the free map

`projects1-3/src/filesys/free-map.c`, lines 12-19 and 55-70: `free_map_init` and
`free_map_create`.

A device whose free map was initialised has no free map file yet (`fresh`), and
`free_map_create` makes one of the length of the bitmap: from then on the free
map is as the functions on other files need it (`FreeMapFile`, `Reserved`).
-/

import CS162.Filesys.InodeWrite

namespace CS162
namespace Filesys

open CS162.Basis

/-- A device of `size` sectors after `free_map_init` and `inode_init`. -/
def fresh (size : BlockSector) (store : BlockSector → Sector) : FsState where
  store := store
  freeMap := freeMapInit size
  freeMapFile := none
  inodes := fun _ => none
  openInodes := []
  memory := fun _ => true
  nextPtr := 0

section Fresh

variable {size : BlockSector} {store : BlockSector → Sector}

theorem bits_fresh (n : ℕ) : (fresh size store).freeMap.bits n = true ↔ n = 1 ∨ n = 0 := by
  show (freeMapInit size).bits n = true ↔ _
  unfold freeMapInit
  rw [Bitmap.bits_setMultiple_one, Bitmap.bits_setMultiple_one]
  have h0 : freeMapSector.toNat = 0 := rfl
  have h1 : rootDirSector.toNat = 1 := rfl
  rw [h0, h1]
  split_ifs with h h' <;> simp [*]

theorem memory_fresh : (fresh size store).Memory := fun _ => rfl

/-- All sectors but the two reserved ones are free. -/
theorem card_free_fresh (h : 2 ≤ size.toNat) :
    (fresh size store).freeMap.free.card + 2 = size.toNat := by
  have hbitCnt : (fresh size store).freeMap.bitCnt = size.toNat := rfl
  have hfree : (fresh size store).freeMap.free = Finset.range size.toNat \ {0, 1} := by
    ext n
    rw [Bitmap.mem_free, hbitCnt, Finset.mem_sdiff, Finset.mem_range, ← Bool.not_eq_true,
      bits_fresh]
    simp only [Finset.mem_insert, Finset.mem_singleton]
    tauto
  have hsub : ({0, 1} : Finset ℕ) ⊆ Finset.range size.toNat := by
    intro n hn
    rw [Finset.mem_insert, Finset.mem_singleton] at hn
    rw [Finset.mem_range]
    omega
  rw [hfree, Finset.card_sdiff_of_subset hsub, Finset.card_range]
  have hcard : ({0, 1} : Finset ℕ).card = 2 := rfl
  omega

theorem freeMapFile_none {σ : FsState} (h : σ.freeMapFile = none) (held : Option InodePtr) :
    FreeMapFile (.blank Sector.zero) held σ :=
  ⟨by simp [h], by simp [h], fun hne => absurd h hne⟩

theorem reserved_fresh : Reserved (Tree.blank Sector.zero).sectors (fresh size store) :=
  ⟨(bits_fresh 0).2 (.inr rfl), by simp [Tree.sectors_blank]⟩

end Fresh

/-! ### Opening an inode -/

/-- The state after `inode_open` of a sector that was not open. -/
def FsState.opened (σ : FsState) (sector : BlockSector) : FsState := { σ.shift with
  inodes := Function.update σ.inodes σ.nextPtr (some ⟨sector, 1, false, 0⟩)
  openInodes := σ.nextPtr :: σ.openInodes
  nextPtr := σ.nextPtr + 1 }

/-- **`inode_open`** of a sector that is not open. -/
theorem run_inodeOpen_new {σ : FsState} {sector : BlockSector}
    (hnew : ∀ p ∈ σ.openInodes, ∀ inode, σ.inodes p = some inode → inode.sector ≠ sector) :
    (inodeOpen sector).run σ =
      some (if σ.memory 0 then (some σ.nextPtr, σ.opened sector) else (none, σ.shift)) := by
  have hfind : (σ.openInodes.find? fun p =>
      (σ.inodes p).any fun inode => inode.sector == sector) = none := by
    rw [List.find?_eq_none]
    intro p hp hany
    rw [Option.any_eq_true] at hany
    obtain ⟨inode, hinode, heq⟩ := hany
    exact hnew p hp inode hinode (beq_iff_eq.1 heq)
  unfold inodeOpen
  rw [run_bind_of_run (show (get : Kernel FsState).run σ = some (σ, σ) from rfl), hfind]
  dsimp only
  rw [run_bind_of_run (run_alloc σ)]
  cases σ.memory 0 <;> rfl

/-! ### `free_map_create` -/

/-- What `free_map_create` leaves: the free map's file at `fm`, open at `q`. -/
structure Formatted (fm : Tree) (q : InodePtr) (σ σ' : FsState) : Prop where
  file : FreeMapFile fm none σ'
  reserved : Reserved fm.sectors σ'
  freeMapFile : σ'.freeMapFile = some q
  inodes : σ'.inodes = Function.update σ.inodes q (some ⟨freeMapSector, 1, false, 0⟩)
  openInodes : σ'.openInodes = [q]
  nextPtr : σ'.nextPtr = q + 1
  memory : σ'.Memory
  sectors : ∀ x ∈ fm.sectors, x = freeMapSector ∨ x.toNat ∈ σ.freeMap.free
  keep : ∀ n, σ.freeMap.bits n = true → σ'.freeMap.bits n = true
  count : σ'.freeMap.free.card + slots ((σ.freeMap.byteCnt + 511) / 512) =
    σ.freeMap.free.card + slots 0

/-- **`free_map_create`** gives the free map a file of its own, and leaves what all other
sectors hold. -/
theorem freeMapCreate_keeps {σ : FsState} (hfile : σ.freeMapFile = none)
    (hr : Reserved (Tree.blank Sector.zero).sectors σ) (hopen : σ.openInodes = [])
    (hlength : σ.freeMap.byteCnt ≤ 512 * capacity)
    (henough : Enough σ 0 ((σ.freeMap.byteCnt + 511) / 512)) :
    Returns freeMapCreate σ fun _ σ' => ∃ fm, Formatted fm σ.nextPtr σ σ' ∧
      ∀ x ∉ fm.sectors, σ'.store x = σ.store x := by
  have hcapacity : capacity = 16524 := rfl
  unfold freeMapCreate inodeCreate
  rw [returns_get_bind]
  have hnonzero : σ.freeMap.bits freeMapSector.toNat = true := hr.zero
  refine (createInodeWith_returns (bitmapWrites (.blank Sector.zero) none) (freeMapFile_none hfile none) hr
    hnonzero (by simp [Tree.sectors_blank]) false (by omega)).seq
    fun ok σ₁ h₁ => ?_
  obtain ⟨rfl, fm, halt, hlaid, hblocks⟩ | ⟨-, hno, -⟩ := h₁
  swap
  · rw [bytesToSectors_of_lt (by omega)] at hno
    exact absurd henough hno
  have hw := halt.wrote hlaid hblocks hlength
  have hmem₁ := hw.same.memory henough.1
  have hopen₁ : σ₁.openInodes = [] := hw.same.openInodes.trans hopen
  have hlen : max 0 (σ.freeMap.byteCnt + ([] : List UInt8).length) = σ.freeMap.byteCnt := by simp
  have hfm := hw.file
  rw [hlen] at hfm
  have hbyteCnt : σ₁.freeMap.byteCnt = σ.freeMap.byteCnt := by
    rw [Bitmap.byteCnt, Bitmap.byteCnt, hw.same.bitCnt]
  have hroot : fm.sector .root = freeMapSector := hw.keep .root (.inl (mem_tables.2 trivial))
  -- the inode is opened and is the free map's file from now on
  have hopened : (inodeOpen freeMapSector).run σ₁ = _ := run_inodeOpen_new (by simp [hopen₁])
  rw [hmem₁ 0, if_pos rfl] at hopened
  have hmem₂ : (σ₁.opened freeMapSector).memory 0 = true := hmem₁ 1
  rw [if_neg (by simp), returns_bind_of_run hopened]
  dsimp only
  rw [returns_bind_of_run (run_alloc _), hmem₂, if_neg (by simp), returns_modify_bind]
  set σ₂ : FsState :=
    { (σ₁.opened freeMapSector).shift with freeMapFile := some σ₁.nextPtr } with hσ₂
  have hready : FreeMapFile fm none σ₂ := by
    refine ⟨by simp, fun p hp => ?_, fun _ => ?_⟩
    · obtain rfl := Option.some.inj hp
      exact ⟨_, Function.update_self .., hroot.symm, rfl⟩
    · show FileAt σ₂ fm σ₁.freeMap.byteCnt
      rw [hbyteCnt]
      exact hfm.congr fun _ _ => rfl
  refine ((bitmapWrites fm none).write hready (by simp [hσ₂])).seq fun written σ₃ h₃ => ?_
  obtain ⟨hwritten, hready₃, hsame, hmap, hstore⟩ := h₃
  have hmem₃ : σ₂.Memory := fun n => hmem₁ (n + 2)
  obtain rfl := hwritten hmem₃
  rw [if_neg (by simp), returns_pure]
  have hmap₁ : σ₃.freeMap = σ₁.freeMap := hmap
  have hptr : σ₁.nextPtr = σ.nextPtr := hw.same.nextPtr
  refine ⟨fm, ⟨hready₃, ⟨?_, ?_⟩, ?_, ?_, ?_, ?_, hsame.memory hmem₃, ?_, fun n hn => ?_, ?_⟩,
    fun x hx => ?_⟩
  · rw [hmap₁]
    exact (hw.bits _).2 (.inl hr.zero)
  · rintro x ⟨s, hs, rfl⟩
    rw [hmap₁]
    exact hw.claimed.taken s hs
  · rw [hsame.freeMapFile, ← hptr]
  · rw [hsame.inodes, ← hptr, ← hw.same.inodes]
    rfl
  · rw [hsame.openInodes, ← hptr]
    show σ₁.nextPtr :: σ₁.openInodes = _
    rw [hopen₁]
  · rw [hsame.nextPtr, ← hptr]
    rfl
  · rintro x ⟨s, hs, rfl⟩
    by_cases hsroot : s = .root
    · exact .inl (hsroot ▸ hroot)
    · exact .inr (hw.fresh s hs fun hmem => hsroot (Tree.mem_live_new.1 hmem))
  · rw [hmap₁]
    exact (hw.bits n).2 (.inl hn)
  · have hcount := hw.count
    rw [hfm.used, hfm.blocks] at hcount
    rw [hmap₁]
    exact hcount
  · refine (hstore x hx).trans (hw.outside x (by simp [Tree.sectors_blank]) fun s hs he => ?_)
    exact hx ⟨s, hs, he⟩

/-- **A fresh device can be formatted**: most of its sectors stay free, and they hold what
they held. -/
theorem fresh_formatted_keeps {size : BlockSector} {store : BlockSector → Sector}
    (h : 1024 ≤ size.toNat) (h' : (freeMapInit size).byteCnt ≤ 512 * capacity) :
    Returns freeMapCreate (fresh size store) fun _ σ' => ∃ fm, Formatted fm 0 (fresh size store) σ' ∧
      size.toNat ≤ σ'.freeMap.free.card + size.toNat / 4096 + 134 ∧
      ∀ x ∉ fm.sectors, σ'.store x = store x := by
  have hfree : (fresh size store).freeMap.free.card + 2 = size.toNat := card_free_fresh (by omega)
  have hbyteCnt : (fresh size store).freeMap.byteCnt = 4 * ((size.toNat + 31) / 32) := rfl
  have hslots := slots_le (((fresh size store).freeMap.byteCnt + 511) / 512)
  have hzero := slots_zero
  refine (freeMapCreate_keeps rfl reserved_fresh rfl h' ⟨memory_fresh, by omega⟩).mono
    fun _ σ' h' => ?_
  obtain ⟨fm, hformatted, hkeep⟩ := h'
  have hcount := hformatted.count
  exact ⟨fm, hformatted, by omega, hkeep⟩

theorem fresh_formatted {size : BlockSector} {store : BlockSector → Sector} (h : 1024 ≤ size.toNat)
    (h' : (freeMapInit size).byteCnt ≤ 512 * capacity) :
    Returns freeMapCreate (fresh size store) fun _ σ' => ∃ fm, Formatted fm 0 (fresh size store) σ' ∧
      size.toNat ≤ σ'.freeMap.free.card + size.toNat / 4096 + 134 :=
  (fresh_formatted_keeps h h').mono fun _ _ ⟨fm, hf, hcard, _⟩ => ⟨fm, hf, hcard⟩

end Filesys
end CS162

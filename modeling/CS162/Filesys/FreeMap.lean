/-
# The free map over calls

`projects1-3/src/filesys/free-map.c`, lines 12-41: `free_map_init`, `free_map_allocate` and
`free_map_release`, with `bitmap_scan` of `lib/kernel/bitmap.c`.

A run starts with a free map just initialised and goes on with calls of the two functions, what
is released having been allocated and not released since.  Between the calls the rest of the kernel
may do anything that leaves the free map alone, so `bitmap_write` may fail at any call.  In
every state the sectors allocated are packed side by side (`Packed`), and from that follows what
a call does (`freeMapAllocate_ensures`) and when it returns (`freeMapAllocate_returns_iff`,
`freeMapRelease_returns_iff`).
-/

import CS162.Basis.Extents
import CS162.Filesys.Frame

namespace CS162
namespace Filesys

open CS162.Basis

/-! ### One call -/

section Calls

variable {σ σ' : FsState} {cnt : ℕ}

/-- The write of the free map with the sectors from `sector` on taken fails. -/
def FsState.WriteFails (σ : FsState) (sector cnt : ℕ) : Prop := σ.freeMapFile ≠ none ∧
  ∃ σ', (bitmapWrite none).run { σ with freeMap := σ.freeMap.setMultiple sector cnt true } =
    some (false, σ')

/-- **A call of `free_map_allocate`**: it finds a group and takes it; or there is none, or the
write fails, and the free map is what it was. -/
theorem freeMapAllocate_ensures (hcnt : 1 ≤ cnt) : Ensures (freeMapAllocate cnt) σ fun r σ' =>
    (∃ sector, r = some sector ∧ FirstFit σ.freeMap.Set σ.freeMap.bitCnt ⟨sector.toNat, cnt⟩ ∧
      σ'.freeMap = σ.freeMap.setMultiple sector.toNat cnt true) ∨
    (r = none ∧ σ'.freeMap = σ.freeMap ∧
      ((∀ j, ¬Fits σ.freeMap.Set σ.freeMap.bitCnt ⟨j, cnt⟩) ∨
        ∃ j, FirstFit σ.freeMap.Set σ.freeMap.bitCnt ⟨j, cnt⟩ ∧ σ.WriteFails j cnt)) := by
  unfold freeMapAllocate freeMapAllocateWith
  rw [ensures_get_bind]
  cases hscan : σ.freeMap.scan 0 cnt false with
  | none =>
    simp only [Bitmap.scanAndFlip, hscan, Option.map_none]
    exact ensures_pure (.inr ⟨rfl, rfl, .inl (Bitmap.scan_none hscan)⟩)
  | some i =>
    have hfirst := Bitmap.scan_some hscan
    have hi : i + cnt ≤ σ.freeMap.bitCnt := hfirst.1.1
    have htoNat : (UInt32.ofNat i).toNat = i := by
      rw [UInt32.toNat_ofNat']
      exact Nat.mod_eq_of_lt (Nat.lt_of_le_of_lt (by omega) σ.freeMap.bitCnt_lt)
    simp only [Bitmap.scanAndFlip, hscan, Option.map_some, Bool.not_false]
    refine ensures_set_bind ?_
    split_ifs with hfile
    · refine ensures_pure (.inl ⟨_, rfl, ?_, ?_⟩)
      · rwa [htoNat]
      · rw [htoNat]
    · intro r σ' hrun
      obtain ⟨written, σ₁, hwrite, hrun⟩ := run_bind_cases hrun
      have hmap := (bitmapWrite_preserves none _ _ _ hwrite).freeMap
      cases written with
      | true =>
        obtain ⟨rfl, rfl⟩ := Prod.mk.inj (Option.some.inj hrun)
        refine .inl ⟨_, rfl, ?_, ?_⟩
        · rwa [htoNat]
        · rw [htoNat, hmap]
      | false =>
        obtain ⟨rfl, rfl⟩ := Prod.mk.inj (Option.some.inj hrun)
        refine .inr ⟨rfl, ?_, .inr ⟨i, hfirst, hfile, σ₁, hwrite⟩⟩
        dsimp only
        rw [hmap]
        exact Bitmap.setMultiple_restore hfirst.1

/-- No sector is free. -/
def FsState.Full (σ : FsState) : Prop := ∀ i < σ.freeMap.bitCnt, σ.freeMap.bits i = true

theorem run_freeMapAllocate_full (h : σ.Full) : (freeMapAllocate 1).run σ = some (none, σ) := by
  have hscan := Bitmap.scan_one_none_iff.2 h
  unfold freeMapAllocate freeMapAllocateWith
  rw [run_bind_of_run (a := σ) (t := σ) rfl]
  simp only [Bitmap.scanAndFlip, hscan, Option.map_none]
  rfl

/-- The free map has a file, which can be written if `inode_resize` gets the memory it asks for, and
the request `k` is refused. -/
structure FsState.MapRefused (σ : FsState) (k : ℕ) : Prop where
  refused : σ.memory k = false
  file : ∃ p inode, σ.freeMapFile = some p ∧ σ.inodes p = some inode ∧ inode.denyWriteCnt = 0 ∧
    (σ.store inode.sector).length ≤ wrap32 (0 + σ.freeMap.bytes.length)

/-- **Where its file gets no memory** to be written, the free map is as it was. -/
theorem run_freeMapAllocate_refused (h : σ.MapRefused 0) :
    σ.Full ∨ (freeMapAllocate 1).run σ = some (none, σ.shift) := by
  cases hscan : σ.freeMap.scan 0 1 false with
  | none => exact .inl (Bitmap.scan_one_none_iff.1 hscan)
  | some i =>
    refine .inr ?_
    obtain ⟨p, inode, hfile, hp, hdeny, hlength⟩ := h.file
    have hfirst := Bitmap.scan_some hscan
    have hbytes : (σ.freeMap.setMultiple i 1 true).bytes.length = σ.freeMap.bytes.length := by
      rw [Bitmap.length_bytes, Bitmap.length_bytes]
      rfl
    have hpos : σ.freeMap.byteCnt ≠ 0 := by
      have hlt : i + 1 ≤ σ.freeMap.bitCnt := hfirst.1.1
      unfold Bitmap.byteCnt
      omega
    set σ₁ : FsState := { σ with freeMap := σ.freeMap.setMultiple i 1 true } with hσ₁
    have hresize : (inodeResizeWith halt inode.sector (wrap32 (0 + σ.freeMap.bytes.length))).run σ₁ =
        some (false, σ₁.shift) := by
      unfold inodeResizeWith
      rw [run_bind_of_run (run_alloc σ₁), if_pos h.refused]
      rfl
    have hwrite : (inodeWriteAtWith halt p (σ.freeMap.setMultiple i 1 true).bytes 0).run σ₁ =
        some (0, σ₁.shift) := by
      unfold inodeWriteAtWith
      have hinode : (getInode p).run σ₁ = some (inode, σ₁) := run_getInode hp
      have hlen : (inodeLength inode.sector).run σ₁ = some ((σ.store inode.sector).length, σ₁) := rfl
      rw [run_bind_of_run hinode, if_neg (by simp [hdeny]), run_bind_of_run hlen, hbytes,
        Nat.cast_zero, if_pos hlength, run_bind_of_run hresize]
      rfl
    have hbitmap : (bitmapWrite none).run σ₁ = some (false, σ₁.shift) := by
      unfold bitmapWrite
      rw [run_bind_of_run (a := σ₁) (t := σ₁) rfl]
      have hmap : σ₁.freeMapFile = some p := hfile
      rw [hmap]
      dsimp only
      rw [if_neg (by simp), run_bind_of_run hwrite]
      have hcount : (0 == (σ.freeMap.setMultiple i 1 true).byteCnt) = false :=
        beq_eq_false_iff_ne.2 hpos.symm
      exact congrArg some (Prod.ext hcount rfl)
    unfold freeMapAllocate freeMapAllocateWith
    rw [run_bind_of_run (a := σ) (t := σ) rfl]
    simp only [Bitmap.scanAndFlip, hscan, Option.map_some, Bool.not_false]
    rw [run_bind_of_run (a := ⟨⟩) (t := σ₁) rfl, if_neg (by rw [hfile]; simp),
      run_bind_of_run hbitmap]
    refine congrArg some (Prod.ext rfl ?_)
    show { σ₁.shift with freeMap := (σ.freeMap.setMultiple i 1 true).setMultiple i 1 false } = σ.shift
    rw [Bitmap.setMultiple_restore hfirst.1]
    rfl

/-- `bitmap_write` of the free map, changed to `freeMap`, returns. -/
def FsState.WriteReturns (σ : FsState) (freeMap : Bitmap) : Prop :=
  Returns (bitmapWrite none) { σ with freeMap := freeMap } fun _ _ => True

/-- **A call of `free_map_allocate` returns** if and only if `bitmap_write` of the group found does;
it is not called while the free map has no file, nor where there is no group. -/
theorem freeMapAllocate_returns_iff : Returns (freeMapAllocate cnt) σ (fun _ _ => True) ↔
    ∀ i, FirstFit σ.freeMap.Set σ.freeMap.bitCnt ⟨i, cnt⟩ → σ.freeMapFile = none ∨
      σ.WriteReturns (σ.freeMap.setMultiple i cnt true) := by
  unfold freeMapAllocate freeMapAllocateWith
  rw [returns_get_bind]
  cases hscan : σ.freeMap.scan 0 cnt false with
  | none =>
    simp only [Bitmap.scanAndFlip, hscan, Option.map_none, returns_pure, true_iff]
    exact fun i hi => absurd hi.1 (Bitmap.scan_none hscan i)
  | some i =>
    have hfirst := Bitmap.scan_some hscan
    refine Iff.trans ?_ ⟨fun h j hj => hj.unique hfirst ▸ h, fun h => h i hfirst⟩
    simp only [Bitmap.scanAndFlip, hscan, Option.map_some, Bool.not_false, returns_set_bind]
    split_ifs with hfile
    · exact iff_of_true (returns_pure.2 trivial) (.inl hfile)
    · rw [or_iff_right hfile]
      refine returns_bind_iff fun written σ' => ?_
      split_ifs
      · exact returns_pure.2 trivial
      · exact returns_modify_bind.2 (returns_pure.2 trivial)

/-- **A call of `free_map_release`** for sectors that are taken returns if and only if `bitmap_write`
without them does. -/
theorem freeMapRelease_returns_iff {sector : BlockSector}
    (h : σ.freeMap.InRange sector.toNat cnt ∧ σ.freeMap.all sector.toNat cnt = true) :
    Returns (freeMapRelease sector cnt) σ (fun _ _ => True) ↔
      σ.WriteReturns (σ.freeMap.setMultiple sector.toNat cnt false) := by
  unfold freeMapRelease freeMapReleaseWith
  rw [returns_get_bind, if_pos h, returns_set_bind]
  exact returns_bind_iff fun _ _ => returns_pure.2 trivial

end Calls

/-! ### Runs -/

/-- The file system, and the groups of sectors allocated and not released. -/
structure MapState where
  fs : FsState
  live : List Extent

/-- A call that returns, or another step of the kernel. -/
inductive MapStep : MapState → MapState → Prop
  | allocated {σ σ' : FsState} {live : List Extent} {cnt : ℕ} {sector : BlockSector} (hcnt : 1 ≤ cnt)
      (h : (freeMapAllocate cnt).run σ = some (some sector, σ')) :
      MapStep ⟨σ, live⟩ ⟨σ', ⟨sector.toNat, cnt⟩ :: live⟩
  | failed {σ σ' : FsState} {live : List Extent} {cnt : ℕ} (hcnt : 1 ≤ cnt)
      (h : (freeMapAllocate cnt).run σ = some (none, σ')) : MapStep ⟨σ, live⟩ ⟨σ', live⟩
  | released {σ σ' : FsState} {live : List Extent} {sector : BlockSector} {cnt : ℕ}
      (hlive : ⟨sector.toNat, cnt⟩ ∈ live) (h : (freeMapRelease sector cnt).run σ = some ((), σ')) :
      MapStep ⟨σ, live⟩ ⟨σ', live.erase ⟨sector.toNat, cnt⟩⟩
  | other {σ σ' : FsState} {live : List Extent} (h : σ'.freeMap = σ.freeMap) :
      MapStep ⟨σ, live⟩ ⟨σ', live⟩

/-- `FREE_MAP_SECTOR` and `ROOT_DIR_SECTOR`. -/
def SetAside (i : ℕ) : Prop := i = 0 ∨ i = 1

/-- **What holds in every state** of a device of `size` sectors. -/
structure MapKept (size : ℕ) (s : MapState) : Prop where
  bitCnt : s.fs.freeMap.bitCnt = size
  packed : Packed SetAside s.fs.freeMap.Set size s.live

/-- `free_map_init`. -/
theorem mapKept_init {size : BlockSector} {σ : FsState} (h : σ.freeMap = freeMapInit size) :
    MapKept size.toNat ⟨σ, []⟩ where
  bitCnt := congrArg Bitmap.bitCnt h
  packed := by
    refine .nil fun i => ?_
    show σ.freeMap.bits i = true ↔ i = 0 ∨ i = 1
    rw [h, freeMapInit, Bitmap.bits_setMultiple_one, Bitmap.bits_setMultiple_one]
    have h0 : freeMapSector.toNat = 0 := rfl
    have h1 : rootDirSector.toNat = 1 := rfl
    rw [h0, h1]
    split_ifs with h h' <;> simp [*]

/-- **One step.** -/
theorem MapStep.kept {size : ℕ} {s s' : MapState} (hstep : MapStep s s') (h : MapKept size s) :
    MapKept size s' := by
  obtain ⟨hcnt, hpacked⟩ := h
  cases hstep with
  | allocated hpos hrun =>
    obtain ⟨sector, heq, hfirst, hmap⟩ | ⟨hnone, -⟩ := freeMapAllocate_ensures hpos _ _ hrun
    · obtain rfl := Option.some.inj heq
      dsimp only at hcnt hpacked
      rw [hcnt] at hfirst
      constructor
      · rw [hmap, Bitmap.bitCnt_setMultiple, hcnt]
      · refine hpacked.take hpos hfirst.1 fun i => ?_
        rw [hmap]
        exact Bitmap.set_setMultiple_true i
    · cases hnone
  | failed hpos hrun =>
    obtain ⟨sector, heq, -⟩ | ⟨-, hmap, -⟩ := freeMapAllocate_ensures hpos _ _ hrun
    · cases heq
    · constructor
      · rw [hmap, hcnt]
      · rw [hmap]
        exact hpacked
  | released hlive hrun =>
    obtain ⟨-, -, hmap⟩ := freeMapRelease_ensures _ _ _ _ _ hrun
    constructor
    · rw [hmap, Bitmap.bitCnt_setMultiple, hcnt]
    · refine hpacked.give hlive fun i => ?_
      rw [hmap]
      exact Bitmap.set_setMultiple_false i
  | other hmap =>
    constructor
    · rw [hmap, hcnt]
    · rw [hmap]
      exact hpacked

/-- **A run.**  By induction on the steps. -/
theorem mapKept_run {size : ℕ} {s s' : MapState} (hrun : Relation.ReflTransGen MapStep s s')
    (h : MapKept size s) : MapKept size s' := by
  induction hrun with
  | refl => exact h
  | tail _ hstep ih => exact hstep.kept ih

/-- What is said of a state of a run on a device of `size` sectors: the groups in use are apart and
have neither of the first two sectors, and nothing else is taken; an allocation takes the lowest
group of free sectors or fails with the free map as it was, for want of a group or because the write
fails, and what is in use may be released.  Both calls return as far as `bitmap_write` does. -/
structure MapRight (size : ℕ) (s : MapState) : Prop where
  apart : s.live.Pairwise Extent.Apart
  inside : ∀ e ∈ s.live, 2 ≤ e.start ∧ e.start + e.cnt ≤ size
  taken : ∀ i, s.fs.freeMap.Set i ↔ SetAside i ∨ ∃ e ∈ s.live, e.Covers i
  lowest : ∀ cnt sector σ', 1 ≤ cnt → (freeMapAllocate cnt).run s.fs = some (some sector, σ') →
    FirstFit s.fs.freeMap.Set size ⟨sector.toNat, cnt⟩
  fails : ∀ cnt σ', 1 ≤ cnt → (freeMapAllocate cnt).run s.fs = some (none, σ') →
    σ'.freeMap = s.fs.freeMap ∧
      ((∀ start, ¬Fits s.fs.freeMap.Set size ⟨start, cnt⟩) ∨
        ∃ start, FirstFit s.fs.freeMap.Set size ⟨start, cnt⟩ ∧ s.fs.WriteFails start cnt)
  returns : ∀ cnt, Returns (freeMapAllocate cnt) s.fs (fun _ _ => True) ↔
    ∀ start, FirstFit s.fs.freeMap.Set size ⟨start, cnt⟩ → s.fs.freeMapFile = none ∨
      s.fs.WriteReturns (s.fs.freeMap.setMultiple start cnt true)
  release : ∀ e ∈ s.live, s.fs.freeMap.InRange e.start e.cnt ∧ s.fs.freeMap.all e.start e.cnt = true
  releases : ∀ (sector : BlockSector) (cnt : ℕ), ⟨sector.toNat, cnt⟩ ∈ s.live →
    (Returns (freeMapRelease sector cnt) s.fs (fun _ _ => True) ↔
      s.fs.WriteReturns (s.fs.freeMap.setMultiple sector.toNat cnt false))
  gives : ∀ sector cnt σ', (freeMapRelease sector cnt).run s.fs = some ((), σ') →
    ∀ i, σ'.freeMap.Set i ↔ s.fs.freeMap.Set i ∧ ¬Extent.Covers ⟨sector.toNat, cnt⟩ i

/-- What is in use passes the assertion of `free_map_release`. -/
theorem MapKept.release {size : ℕ} {s : MapState} (h : MapKept size s) {e : Extent}
    (he : e ∈ s.live) :
    s.fs.freeMap.InRange e.start e.cnt ∧ s.fs.freeMap.all e.start e.cnt = true := by
  refine ⟨?_, Bitmap.all_of_set fun k hk => (h.packed.taken k).2 (.inr ⟨e, he, hk⟩)⟩
  show e.start + e.cnt ≤ s.fs.freeMap.bitCnt
  rw [h.bitCnt]
  exact (h.packed.onLine e he).2

/-- What holds in every state gives what is asked. -/
theorem MapKept.right {size : ℕ} {s : MapState} (h : MapKept size s) : MapRight size s where
  apart := h.packed.apart
  inside e he := by
    have hpos := h.packed.onLine e he
    have hfree := h.packed.free e he e.start ⟨le_rfl, by omega⟩
    unfold SetAside at hfree
    exact ⟨by omega, hpos.2⟩
  lowest cnt sector σ' hcnt hrun := by
    obtain ⟨sector', heq, hfirst, -⟩ | ⟨hnone, -⟩ := freeMapAllocate_ensures hcnt _ _ hrun
    · obtain rfl := Option.some.inj heq
      exact h.bitCnt ▸ hfirst
    · cases hnone
  fails cnt σ' hcnt hrun := by
    obtain ⟨sector, heq, -⟩ | ⟨-, hmap, hwhy⟩ := freeMapAllocate_ensures hcnt _ _ hrun
    · cases heq
    · exact ⟨hmap, h.bitCnt ▸ hwhy⟩
  taken := h.packed.taken
  returns _ := h.bitCnt ▸ freeMapAllocate_returns_iff
  release _ he := h.release he
  releases _ _ he := freeMapRelease_returns_iff (h.release he)
  gives sector cnt σ' hrun i := by
    obtain ⟨-, -, hmap⟩ := freeMapRelease_ensures _ _ _ _ _ hrun
    rw [hmap]
    exact Bitmap.set_setMultiple_false i

/-- **The free map over any calls**, on a device of any size. -/
theorem freeMap_right {size : BlockSector} {σ : FsState} (hinit : σ.freeMap = freeMapInit size)
    {s : MapState} (hrun : Relation.ReflTransGen MapStep ⟨σ, []⟩ s) : MapRight size.toNat s :=
  (mapKept_run hrun (mapKept_init hinit)).right

/-- A device of eight sectors, with the free map initialised and not in its file yet. -/
def eightSectors : FsState where
  store := fun _ => Sector.zero
  freeMap := freeMapInit 8
  freeMapFile := none
  inodes := fun _ => none
  openInodes := []
  memory := fun _ => true
  nextPtr := 0

/-- Sector 2 is allocated, and the free map is in its file from then on: the inode in sector 0, with
its bytes in sector 2. -/
def eightInFile : FsState where
  store := Function.update (fun _ => Sector.zero) 0 ((newInodeDisk 4 false).setWord 0 2)
  freeMap := (freeMapInit 8).setMultiple 2 1 true
  freeMapFile := some 0
  inodes := Function.update (fun _ => none) 0 (some ⟨0, 1, false, 0⟩)
  openInodes := [0]
  memory := fun _ => true
  nextPtr := 1

/-- Sector 2 is allocated for the free map's file; then three sectors are, and they are released. -/
theorem freeMap_right_released : ∃ σ σ', MapRight (8 : BlockSector).toNat ⟨σ, [⟨3, 3⟩, ⟨2, 1⟩]⟩ ∧
    (freeMapRelease 3 3).run σ = some ((), σ') ∧
    MapRight (8 : BlockSector).toNat ⟨σ', [⟨2, 1⟩]⟩ := by
  have hone : ∃ σ₁, (freeMapAllocate 1).run eightSectors = some (some 2, σ₁) ∧
      σ₁.freeMap = eightInFile.freeMap := ⟨_, rfl, rfl⟩
  obtain ⟨σ₁, h₁, hmap⟩ := hone
  have hsteps : (((freeMapAllocate 3).run eightInFile).bind fun r =>
      if r.1 = some 3 then (freeMapRelease 3 3).run r.2 else none).isSome := by decide +kernel
  obtain ⟨⟨⟩, hboth⟩ := Option.isSome_iff_exists.1 hsteps
  obtain ⟨⟨sector, σ⟩, h₂, h₃⟩ := Option.bind_eq_some_iff.1 hboth
  dsimp only at h₃
  split_ifs at h₃ with hsector
  subst hsector
  have hrun : Relation.ReflTransGen MapStep ⟨eightSectors, []⟩ ⟨σ, [⟨3, 3⟩, ⟨2, 1⟩]⟩ :=
    .tail (.tail (.single (.allocated (by decide) h₁)) (.other hmap.symm))
      (.allocated (by decide) h₂)
  exact ⟨σ, _, freeMap_right rfl hrun, h₃,
    freeMap_right rfl (.tail hrun (.released (List.mem_cons_self ..) h₃))⟩

end Filesys
end CS162

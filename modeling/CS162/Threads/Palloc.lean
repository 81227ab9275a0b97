/-
# The page allocator

`projects1-3/src/threads/palloc.c`, lines 62-150: `palloc_get_multiple`, `palloc_get_page`,
`palloc_free_multiple` and `palloc_free_page`, with the fields that `malloc.c` keeps beside them.

A pool is a base and a bitmap of the pages in use.  The locks of the pools are left out: calls
are taken one after the other.
-/

import CS162.Basis.Pointers
import CS162.Filesys.Bitmap

namespace CS162
namespace Threads

open CS162.Basis CS162.Filesys

/-- `PGSIZE`. -/
def pgsize : ℕ := 4096

/-- `pg_ofs`. -/
def pgOfs (va : ℕ) : ℕ := va % pgsize

/-- `pg_no`. -/
def pgNo (va : ℕ) : ℕ := va / pgsize

/-- `pg_round_down`. -/
def pgRoundDown (va : ℕ) : ℕ := va - va % pgsize

/-- `sizeof (struct desc)`: two words, a list and a lock of 32 bytes. -/
def sizeofDesc : ℕ := 56

/-- Where the array `descs` and the pages of the pools lie.  The pools start behind the kernel's
own data. -/
structure Layout where
  descs : ℕ
  kernelBase : ℕ
  kernelPages : ℕ
  userBase : ℕ
  descs_pos : 0 < descs
  below : descs + 10 * sizeofDesc ≤ kernelBase
  aligned : pgOfs kernelBase = 0
  fits : kernelBase + pgsize * kernelPages ≤ 2 ^ 32

/-- The memory, the pools' `used_map`s, and `desc_cnt`. -/
structure KernelHeap where
  mem : Memory
  kernelMap : Bitmap
  userMap : Bitmap
  descCnt : ℕ

abbrev OnHeap (α : Type) := Prog KernelHeap α

/-- `enum palloc_flags`. -/
structure PallocFlags where
  assert : Bool := false
  zero : Bool := false
  user : Bool := false

/-- A program on the memory alone. -/
def onMem {α : Type} (x : Prog Memory α) : OnHeap α := fun H =>
  (x.run H.mem).map fun r => (r.1, { H with mem := r.2 })

def memset (p : ℕ) (value : UInt8) (n : ℕ) : OnHeap Unit :=
  modify fun H => { H with mem := store H.mem p (List.replicate n value) }

section Palloc

variable (L : Layout)

/-- `palloc_get_multiple`; a null pointer is 0. -/
def pallocGetMultiple (flags : PallocFlags) (pageCnt : ℕ) : OnHeap ℕ :=
  if pageCnt = 0 then return 0 else do
  let H ← get
  match (if flags.user then H.userMap else H.kernelMap).scanAndFlip 0 pageCnt false with
  | none => if flags.assert then halt else return 0
  | some (pageIdx, map) =>
    let pages := (if flags.user then L.userBase else L.kernelBase) + pgsize * pageIdx
    set (if flags.user then { H with userMap := map } else { H with kernelMap := map })
    if flags.zero then
      memset pages 0 (pgsize * pageCnt)
    return pages

/-- `palloc_get_page`. -/
def pallocGetPage (flags : PallocFlags) : OnHeap ℕ := pallocGetMultiple L flags 1

/-- `page_from_pool`. -/
def pageFromPool (base : ℕ) (map : Bitmap) (page : ℕ) : Bool :=
  decide (pgNo base ≤ pgNo page) && decide (pgNo page < pgNo base + map.bitCnt)

/-- The assertion of `palloc_free_multiple`, and `bitmap_set_multiple`. -/
def release (map : Bitmap) (pageIdx pageCnt : ℕ) : Option Bitmap :=
  if map.InRange pageIdx pageCnt ∧ map.all pageIdx pageCnt = true then
    some (map.setMultiple pageIdx pageCnt false)
  else none

/-- `palloc_free_multiple`. -/
def pallocFreeMultiple (pages pageCnt : ℕ) : OnHeap Unit :=
  if pgOfs pages ≠ 0 then halt else
  if pages = 0 ∨ pageCnt = 0 then return else do
  let H ← get
  if pageFromPool L.kernelBase H.kernelMap pages then
    memset pages 0xcc (pgsize * pageCnt)
    match release H.kernelMap (pgNo pages - pgNo L.kernelBase) pageCnt with
    | some map => modify fun H => { H with kernelMap := map }
    | none => halt
  else if pageFromPool L.userBase H.userMap pages then
    memset pages 0xcc (pgsize * pageCnt)
    match release H.userMap (pgNo pages - pgNo L.userBase) pageCnt with
    | some map => modify fun H => { H with userMap := map }
    | none => halt
  else halt

/-- `palloc_free_page`. -/
def pallocFreePage (page : ℕ) : OnHeap Unit := pallocFreeMultiple L page 1

end Palloc

variable {α β : Type} {L : Layout} {H : KernelHeap} {k : ℕ}

/-- Only the memory changes, to one of which `P` holds. -/
def MemOnly (P : Memory → Prop) (H H' : KernelHeap) : Prop := ∃ m, H' = { H with mem := m } ∧ P m

theorem Returns.onMem {x : Prog Memory α} {P : α → Memory → Prop} (h : Returns x H.mem P) :
    Returns (onMem x) H fun a H' => MemOnly (P a) H H' := by
  obtain ⟨a, m, hrun, hP⟩ := h
  refine ⟨a, { H with mem := m }, ?_, m, rfl, hP⟩
  change (x.run H.mem).map _ = _
  rw [hrun]
  rfl

theorem returns_onMem_readField {p off : ℕ} {f : ℕ → OnHeap β} {Q : β → KernelHeap → Prop} (hp : p ≠ 0) :
    Returns (onMem (readField p off) >>= f) H Q ↔ Returns (f (fieldAt H.mem p off)) H Q := by
  unfold readField
  rw [if_neg hp]
  exact returns_bind_of_run rfl

theorem returns_onMem_writeField {p off x : ℕ} {f : Unit → OnHeap β} {Q : β → KernelHeap → Prop}
    (hp : p ≠ 0) : Returns (onMem (writeField p off x) >>= f) H Q ↔
      Returns (f ()) { H with mem := setFieldAt H.mem p off x } Q := by
  unfold writeField
  rw [if_neg hp]
  exact returns_bind_of_run rfl

/-- No `cnt` pages in a row are free in the kernel's pool. -/
def KernelHeap.NoPages (H : KernelHeap) (cnt : ℕ) : Prop :=
  ∀ k, ¬Fits H.kernelMap.Set H.kernelMap.bitCnt ⟨k, cnt⟩

/-- The page `k` of the kernel's pool. -/
def Layout.page (L : Layout) (k : ℕ) : ℕ := L.kernelBase + pgsize * k

/-- The heap with the page `k` marked as in use, or as free. -/
def KernelHeap.mark (H : KernelHeap) (k : ℕ) (used : Bool) : KernelHeap :=
  { H with kernelMap := H.kernelMap.setMultiple k 1 used }

/-- **A page of the kernel's pool**: any free one, or none where all are in use. -/
theorem pallocGetPage_returns : Returns (pallocGetPage L {}) H fun a H' =>
    (a = 0 ∧ H' = H ∧ ∀ k < H.kernelMap.bitCnt, H.kernelMap.bits k = true) ∨
      ∃ k < H.kernelMap.bitCnt, H.kernelMap.bits k = false ∧ a = L.page k ∧ H' = H.mark k true := by
  unfold pallocGetPage pallocGetMultiple
  rw [if_neg Nat.one_ne_zero, returns_get_bind]
  change Returns (match H.kernelMap.scanAndFlip 0 1 false with
    | none => _
    | some (pageIdx, map) => _) H _
  unfold Bitmap.scanAndFlip
  cases hscan : H.kernelMap.scan 0 1 false with
  | none =>
    refine returns_pure.2 (.inl ⟨rfl, rfl, ?_⟩)
    exact Bitmap.scan_one_none_iff.1 hscan
  | some k =>
    obtain ⟨hk, hbit, -⟩ := Bitmap.scan_one_some hscan
    refine returns_set_bind.2 (returns_pure.2 (.inr ⟨k, hk, hbit, rfl, rfl⟩))

/-- **Pages of the kernel's pool**: the first of some free ones in a row, or none. -/
theorem pallocGetMultiple_returns {cnt : ℕ} (hcnt : cnt ≠ 0) :
    Returns (pallocGetMultiple L {} cnt) H fun a H' => (a = 0 ∧ H' = H ∧ H.NoPages cnt) ∨
      ∃ k, Fits H.kernelMap.Set H.kernelMap.bitCnt ⟨k, cnt⟩ ∧ a = L.page k ∧
        H' = { H with kernelMap := H.kernelMap.setMultiple k cnt true } := by
  unfold pallocGetMultiple
  rw [if_neg hcnt, returns_get_bind]
  change Returns (match H.kernelMap.scanAndFlip 0 cnt false with
    | none => _
    | some (pageIdx, map) => _) H _
  unfold Bitmap.scanAndFlip
  cases hscan : H.kernelMap.scan 0 cnt false with
  | none => exact returns_pure.2 (.inl ⟨rfl, rfl, Bitmap.scan_none hscan⟩)
  | some k =>
    have hfits := (Bitmap.scan_some hscan).1
    exact returns_set_bind.2 (returns_pure.2 (.inr ⟨k, hfits, rfl, rfl⟩))

theorem Layout.pgOfs_page (L : Layout) (k : ℕ) : pgOfs (L.page k) = 0 := by
  have haligned := L.aligned
  unfold pgOfs pgsize at haligned ⊢
  unfold Layout.page pgsize
  omega

theorem Layout.pgNo_page (L : Layout) (k : ℕ) : pgNo (L.page k) = pgNo L.kernelBase + k := by
  unfold pgNo Layout.page
  exact Nat.add_mul_div_left _ _ (by decide)

/-- **A page is given back.** -/
theorem pallocFreePage_returns (hk : k < H.kernelMap.bitCnt) (hused : H.kernelMap.bits k = true) :
    Returns (pallocFreePage L (L.page k)) H fun _ H' =>
      H' = { H.mark k false with mem := store H.mem (L.page k) (List.replicate pgsize 0xcc) } := by
  have hpos := L.descs_pos
  have hbelow := L.below
  have hnull : ¬(L.page k = 0 ∨ (1 : ℕ) = 0) := by
    unfold Layout.page
    omega
  have hpool : pageFromPool L.kernelBase H.kernelMap (L.page k) = true := by
    unfold pageFromPool
    rw [L.pgNo_page]
    simp [hk]
  have hrelease : release H.kernelMap (pgNo (L.page k) - pgNo L.kernelBase) 1 =
      some (H.kernelMap.setMultiple k 1 false) := by
    rw [L.pgNo_page, Nat.add_sub_cancel_left]
    unfold release
    rw [if_pos ⟨hk, by rw [Bitmap.all_one, hused]⟩]
  unfold pallocFreePage pallocFreeMultiple
  rw [if_neg (not_not_intro (L.pgOfs_page k)), if_neg hnull, returns_get_bind, if_pos hpool]
  unfold memset
  rw [returns_modify_bind, hrelease]
  exact returns_modify.2 rfl

end Threads
end CS162

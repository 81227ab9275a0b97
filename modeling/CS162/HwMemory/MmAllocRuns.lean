/-
# Runs of the user heap allocator

Calls of `mm_malloc`, `mm_realloc` and `mm_free` in any order, with what the owners of the
payloads write in between.  `HeapUse.live` is what the owners know: the pointers that they
have, and the sizes that they asked for.

In a run in which no call splits a block or asks for a size that wraps around, every call
returns, keeps the payloads apart from each other and from the headers, and changes no byte
of a payload but its owner's (`mmAlloc_separated`).
-/

import Mathlib.Data.List.Nodup
import CS162.Basis.Runs
import CS162.HwMemory.MmMalloc

namespace CS162
namespace HwMemory

open CS162.Basis

/-- The heap and the payloads that are in use: pointers and sizes. -/
structure HeapUse where
  heap : MmHeap
  live : List (ℕ × ℕ)

/-- The calls, and an owner's write at an offset. -/
inductive HeapCall where
  | malloc (size : UInt64)
  | realloc (ptr : ℕ) (size : UInt64)
  | free (ptr : ℕ)
  | write (ptr off : ℕ) (bytes : List UInt8)

def HeapCall.perform : HeapCall → OnMmHeap (Option ℕ)
  | malloc size => mmMalloc size.toNat
  | realloc ptr size => mmRealloc ptr size.toNat
  | free ptr => do
    mmFree ptr
    return none
  | write ptr off bytes => do
    storeBytes (ptr + off) bytes
    return none

/-- The pointer is null or a live one. -/
def HeapUse.Valid (R : HeapUse) (ptr : ℕ) : Prop := ptr = 0 ∨ ∃ r, (ptr, r) ∈ R.live

/-- Owners use live pointers, and write inside their payloads. -/
def HeapCall.Enabled (R : HeapUse) : HeapCall → Prop
  | malloc _ => True
  | realloc ptr _ | free ptr => R.Valid ptr
  | write ptr off bytes => ∃ r, (ptr, r) ∈ R.live ∧ off + bytes.length ≤ r

/-- The payloads without a pointer's. -/
def HeapUse.without (R : HeapUse) (ptr : ℕ) : List (ℕ × ℕ) := R.live.filter fun x => x.1 ≠ ptr

/-- The payload that a call returned. -/
def given (size : UInt64) : Option ℕ → List (ℕ × ℕ)
  | none => []
  | some p => [(p, size.toNat)]

/-- The payloads after a call. -/
def HeapCall.liveAfter (R : HeapUse) (res : Option ℕ) : HeapCall → List (ℕ × ℕ)
  | malloc size => given size res ++ R.live
  | realloc ptr size =>
    -- `mm_realloc` that fails frees nothing, unless it was to free
    if res = none ∧ size ≠ 0 then R.live else given size res ++ R.without ptr
  | free ptr => R.without ptr
  | write _ _ _ => R.live

/-- A step of a run. -/
def HeapUseStep (R : HeapUse) (c : HeapCall) (R' : HeapUse) : Prop :=
  c.Enabled R ∧ ∃ res H, c.perform.run R.heap = some (res, H) ∧ R' = ⟨H, c.liveAfter R res⟩

/-- Two ranges of bytes have none in common. -/
def Beside (a n b k : ℕ) : Prop := a + n ≤ b ∨ b + k ≤ a

/-- **The list is well formed, and the payloads lie apart** from each other and from the headers. -/
structure Separated (H : MmHeap) (live : List (ℕ × ℕ)) : Prop where
  apart : live.Pairwise fun x y => Beside x.1 x.2 y.1 y.2
  headers : ∃ bs, Shape H bs ∧ ∀ x ∈ live, ∀ b ∈ bs, Beside x.1 x.2 b.addr dataOffset

/-- The pointer whose payload a call may change. -/
def HeapCall.owns : HeapCall → ℕ
  | malloc _ => 0
  | realloc ptr _ | free ptr | write ptr _ _ => ptr

/-- The first `n` bytes at `a` are at `b` afterwards. -/
def Moved (m m' : Memory) (a b n : ℕ) : Prop := ∀ i < n, m' (b + i) = m (a + i)

/-- `mm_realloc` keeps the bytes of a payload of `r` bytes. -/
def ReallocKeeps (m m' : Memory) (ptr r : ℕ) (size : UInt64) : Option ℕ → Prop
  | some p => Moved m m' ptr p (min r size.toNat)
  | none => size ≠ 0 → Moved m m' ptr ptr r

/-- What a call is to leave. -/
structure CallKeeps (R : HeapUse) (c : HeapCall) (res : Option ℕ) (H : MmHeap) : Prop where
  separated : Separated H (c.liveAfter R res)
  /-- No byte of another's payload changes. -/
  kept : ∀ x ∈ R.live, x.1 ≠ c.owns → Moved R.heap.mem H.mem x.1 x.1 x.2
  bytes : ∀ ptr size r, c = .realloc ptr size → (ptr, r) ∈ R.live →
    ReallocKeeps R.heap.mem H.mem ptr r size res

/-- The call returns and leaves what it is to leave. -/
def HeapCall.Safe (R : HeapUse) (c : HeapCall) : Prop := Returns c.perform R.heap (CallKeeps R c)

/-- The condition on a call. -/
def HeapCall.Meets (R : HeapUse) : HeapCall → Prop
  | malloc size => R.heap.MallocMeets size.toNat
  | realloc ptr size =>
    (ptr = 0 → R.heap.MallocMeets size.toNat) ∧
      (ptr ≠ 0 → numberAt R.heap.mem (ptr - dataOffset) 8 < size.toNat →
        R.heap.MallocMeets size.toNat)
  | free _ | write _ _ _ => True

/-! ### The owners' payloads -/

/-- The payloads are in blocks in use. -/
structure Owned (live : List (ℕ × ℕ)) (bs : List Block) : Prop where
  block : ∀ x ∈ live, ∃ b ∈ used bs, x.1 = b.addr + dataOffset ∧ x.2 ≤ b.size
  nodup : (live.map Prod.fst).Nodup

/-- What holds of runs. -/
def HeapInv (R : HeapUse) : Prop := ∃ bs, Shape R.heap bs ∧ Owned R.live bs

variable {H H' : MmHeap} {bs bs' : List Block} {live : List (ℕ × ℕ)} {b c : Block} {p n : ℕ}

theorem Shape.addr_nodup (h : Shape H bs) : (bs.map Block.addr).Nodup := by
  refine List.pairwise_map.2 (h.apart.imp fun {b c} hbc => ?_)
  have := b.addr_lt_fin
  omega

/-- Two blocks are one behind the other. -/
theorem Shape.blocks (h : Shape H bs) (hb : b ∈ bs) (hc : c ∈ bs) (hne : b.addr ≠ c.addr) :
    b.fin ≤ c.addr ∨ c.fin ≤ b.addr := by
  obtain ⟨pre, post, rfl⟩ := List.append_of_mem hb
  rcases List.mem_append.1 hc with hc | hc
  · exact .inr (h.before hc)
  · rcases List.mem_cons.1 hc with rfl | hc
    · exact absurd rfl hne
    · exact .inl (h.behind hc)

/-- **Payloads in blocks of the heap lie apart.** -/
theorem Owned.separated (ho : Owned live bs) (h : Shape H bs) : Separated H live where
  apart := by
    refine (List.pairwise_map.1 ho.nodup).imp_of_mem fun {x y} hx hy hne => ?_
    obtain ⟨b, hb, hxb, hxsize⟩ := ho.block x hx
    obtain ⟨c, hc, hyc, hysize⟩ := ho.block y hy
    have hbc := h.blocks (mem_used.1 hb).1 (mem_used.1 hc).1 (by omega)
    unfold Block.fin at hbc
    unfold Beside
    omega
  headers := by
    refine ⟨bs, h, fun x hx b hb => ?_⟩
    obtain ⟨c, hc, hxc, hxsize⟩ := ho.block x hx
    unfold Beside
    by_cases heq : c.addr = b.addr
    · exact .inr (by omega)
    · have hbc := h.blocks (mem_used.1 hc).1 hb heq
      unfold Block.fin at hbc
      omega

theorem Moved.trans {m₁ m₂ m₃ : Memory} {a₁ a₂ a₃ : ℕ} (h : Moved m₁ m₂ a₁ a₂ n)
    (h' : Moved m₂ m₃ a₂ a₃ n) : Moved m₁ m₃ a₁ a₃ n :=
  fun i hi => (h' i hi).trans (h i hi)

theorem Moved.mono {m m' : Memory} {a a' k : ℕ} (h : Moved m m' a a' n) (hk : k ≤ n) :
    Moved m m' a a' k :=
  fun i hi => h i (Nat.lt_of_lt_of_le hi hk)

/-- A payload whose block's payload is unchanged. -/
theorem Block.SameData.moved {m m' : Memory} {x : ℕ × ℕ} (h : b.SameData m m')
    (hx : x.1 = b.addr + dataOffset) (hsize : x.2 ≤ b.size) : Moved m m' x.1 x.1 x.2 := by
  intro i hi
  exact h _ (by omega) (by unfold Block.fin; omega)

/-- All payloads are as they were. -/
theorem Owned.moved {m m' : Memory} (ho : Owned live bs) (hsame : ∀ b ∈ used bs, b.SameData m m') :
    ∀ x ∈ live, Moved m m' x.1 x.1 x.2 := by
  intro x hx
  obtain ⟨b, hb, hxb, hsize⟩ := ho.block x hx
  exact (hsame b hb).moved hxb hsize

/-- The pointer of a new payload is new. -/
theorem Allocated.ptr_ne (ha : Allocated H bs n H' bs' b) (hc : c ∈ used bs) : c.addr ≠ b.addr := by
  intro heq
  have hnodup := ((ha.shape.addr_nodup).sublist ((List.filter_sublist (p := fun b => !b.free)).map _))
  change ((used bs').map Block.addr).Nodup at hnodup
  rw [(ha.inUse.map Block.addr).nodup_iff, List.map_cons, List.nodup_cons] at hnodup
  exact hnodup.1 (heq ▸ List.mem_map_of_mem hc)

/-- **A payload more.** -/
theorem Owned.allocated (ho : Owned live bs) (ha : Allocated H bs n H' bs' b) :
    Owned ((b.addr + dataOffset, n) :: live) bs' where
  block x hx := by
    rcases List.mem_cons.1 hx with rfl | hx
    · exact ⟨b, ha.inUse.mem_iff.2 List.mem_cons_self, rfl, ha.size⟩
    · obtain ⟨c, hc, hxc, hsize⟩ := ho.block x hx
      exact ⟨c, ha.inUse.mem_iff.2 (List.mem_cons_of_mem _ hc), hxc, hsize⟩
  nodup := by
    rw [List.map_cons, List.nodup_cons]
    refine ⟨fun hmem => ?_, ho.nodup⟩
    obtain ⟨x, hx, hxp⟩ := List.mem_map.1 hmem
    obtain ⟨c, hc, hxc, -⟩ := ho.block x hx
    exact ha.ptr_ne hc (by dsimp only at hxp; omega)

/-- **A payload less.** -/
theorem Owned.freed {pre post : List Block} (ho : Owned live (pre ++ b :: post))
    (hused : used bs' = used (pre ++ post)) :
    Owned (live.filter fun x => x.1 ≠ b.addr + dataOffset) bs' where
  block x hx := by
    obtain ⟨hx, hne⟩ := List.mem_filter.1 hx
    obtain ⟨c, hc, hxc, hsize⟩ := ho.block x hx
    refine ⟨c, ?_, hxc, hsize⟩
    rw [hused]
    obtain ⟨hmem, hfree⟩ := mem_used.1 hc
    refine mem_used.2 ⟨?_, hfree⟩
    rcases List.mem_append.1 hmem with hmem | hmem
    · exact List.mem_append_left _ hmem
    · rcases List.mem_cons.1 hmem with rfl | hmem
      · exact absurd hxc (of_decide_eq_true hne)
      · exact List.mem_append_right _ hmem
  nodup := ho.nodup.sublist (List.filter_sublist.map _)

/-- What every call is to leave, and the invariant. -/
def CallDone (R : HeapUse) (c : HeapCall) (res : Option ℕ) (H : MmHeap) : Prop :=
  (∃ bs, Shape H bs ∧ Owned (c.liveAfter R res) bs) ∧
    (∀ x ∈ R.live, x.1 ≠ c.owns → Moved R.heap.mem H.mem x.1 x.1 x.2) ∧
    ∀ ptr size r, c = .realloc ptr size → (ptr, r) ∈ R.live →
      ReallocKeeps R.heap.mem H.mem ptr r size res

variable {R : HeapUse}

theorem malloc_done {size : UInt64} (h : Shape R.heap bs) (ho : Owned R.live bs)
    (hm : R.heap.MallocMeets size.toNat) :
    Returns (HeapCall.malloc size).perform R.heap (CallDone R (.malloc size)) := by
  refine (mmMalloc_returns h hm).mono ?_
  rintro res H' (⟨rfl, hshape, hmem⟩ | ⟨bs', b, rfl, ha⟩)
  · refine ⟨⟨bs, hshape, ho⟩, fun x _ _ i _ => ?_, nofun⟩
    rw [hmem]
  · exact ⟨⟨bs', ha.shape, ho.allocated ha⟩, fun x hx _ => ho.moved ha.same x hx, nofun⟩

/-- A payload is written. -/
theorem Owned.stored {r off : ℕ} {bytes : List UInt8} (h : Shape H bs) (ho : Owned live bs)
    (hmem : (p, r) ∈ live) (hlen : off + bytes.length ≤ r) :
    Returns (storeBytes (p + off) bytes) H fun _ H' =>
      H' = { H with mem := store H.mem (p + off) bytes } ∧ Shape H' bs ∧
        ∀ x ∈ live, x.1 ≠ p → Moved H.mem H'.mem x.1 x.1 x.2 := by
  have hsep := ho.separated h
  obtain ⟨b, hb, hptr, hsize⟩ := ho.block _ hmem
  dsimp only at hptr hsize
  obtain ⟨pre, post, rfl⟩ := List.append_of_mem (mem_used.1 hb).1
  have hin : dataOffset + off + bytes.length ≤ 28 + b.size := by
    unfold dataOffset
    omega
  have hinside := h.inside_store (b := b) (by simp) hin
  have hshape := h.written (b := b) (Nat.le_add_right dataOffset off) hin
  rw [← Nat.add_assoc, ← hptr] at hinside hshape
  refine storeBytes_returns hinside ⟨rfl, hshape, fun x hx hne i hi => ?_⟩
  have hbeside : Beside x.1 x.2 p r := by
    obtain ⟨c, hc, hxc, hxsize⟩ := ho.block x hx
    have hbc := h.blocks (mem_used.1 hc).1 (mem_used.1 hb).1 (by omega)
    unfold Block.fin at hbc
    unfold Beside
    omega
  unfold Beside at hbeside
  rcases hbeside with hbefore | hbehind
  · exact store_of_lt (by omega)
  · exact store_of_ge (by omega)

/-- A payload is freed. -/
theorem Owned.release {r : ℕ} (h : Shape H bs) (ho : Owned live bs) (hmem : (p, r) ∈ live) :
    Returns (mmFree p) H fun _ H' =>
      (∃ bs', Shape H' bs' ∧ Owned (live.filter fun x => x.1 ≠ p) bs') ∧
        ∀ x ∈ live, x.1 ≠ p → Moved H.mem H'.mem x.1 x.1 x.2 := by
  obtain ⟨b, hb, hptr, -⟩ := ho.block _ hmem
  dsimp only at hptr
  subst hptr
  obtain ⟨pre, post, rfl⟩ := List.append_of_mem (mem_used.1 hb).1
  refine (mmFree_returns h).mono ?_
  rintro _ _ ⟨m', bs', rfl, hshape, hused, hsame⟩
  have hfreed := ho.freed hused
  refine ⟨⟨bs', hshape, hfreed⟩, fun x hx hne => ?_⟩
  obtain ⟨c, hc, hxc, hsize⟩ := hfreed.block x (List.mem_filter.2 ⟨hx, decide_eq_true hne⟩)
  exact ((hsame c (hused ▸ hc)).data).moved hxc hsize

/-- Payloads are not at the null pointer. -/
theorem Owned.ptr_ne_zero {x : ℕ × ℕ} (ho : Owned live bs) (hx : x ∈ live) : x.1 ≠ 0 := by
  obtain ⟨b, -, hxb, -⟩ := ho.block x hx
  unfold dataOffset at hxb
  omega

/-- The null pointer's payload is nobody's. -/
theorem HeapUse.without_zero (ho : Owned R.live bs) : R.without 0 = R.live :=
  List.filter_eq_self.2 fun _ hx => decide_eq_true (ho.ptr_ne_zero hx)

theorem free_done {ptr : ℕ} (h : Shape R.heap bs) (ho : Owned R.live bs) (hvalid : R.Valid ptr) :
    Returns (HeapCall.free ptr).perform R.heap (CallDone R (.free ptr)) := by
  change Returns (mmFree ptr >>= fun _ => pure none) R.heap _
  rcases hvalid with rfl | ⟨r, hmem⟩
  · refine returns_pure.2 ⟨⟨bs, h, ?_⟩, fun x _ _ i _ => rfl, nofun⟩
    change Owned (R.without 0) bs
    rwa [HeapUse.without_zero ho]
  · refine (ho.release h hmem).seq ?_
    rintro _ H' ⟨hbs, hmoved⟩
    exact returns_pure.2 ⟨hbs, hmoved, nofun⟩

theorem write_done {ptr off : ℕ} {bytes : List UInt8} (h : Shape R.heap bs) (ho : Owned R.live bs)
    (henabled : (HeapCall.write ptr off bytes).Enabled R) :
    Returns (HeapCall.write ptr off bytes).perform R.heap (CallDone R (.write ptr off bytes)) := by
  obtain ⟨r, hmem, hlen⟩ := henabled
  change Returns (storeBytes (ptr + off) bytes >>= fun _ => pure none) R.heap _
  refine (ho.stored h hmem hlen).seq ?_
  rintro _ H' ⟨-, hshape, hmoved⟩
  exact returns_pure.2 ⟨⟨bs, hshape, ho⟩, hmoved, nofun⟩

/-- A pointer has one size. -/
theorem Owned.size_unique {r r' : ℕ} (ho : Owned live bs) (h : (p, r) ∈ live)
    (h' : (p, r') ∈ live) : r = r' :=
  congrArg Prod.snd (List.inj_on_of_nodup_map ho.nodup h h' rfl)

/-- `mm_realloc` returns the pointer that it is given. -/
theorem Owned.resized {size : ℕ} (ho : Owned live bs) (hb : b ∈ used bs)
    (hptr : p = b.addr + dataOffset) (hsize : size ≤ b.size) :
    Owned ((p, size) :: live.filter fun x => x.1 ≠ p) bs where
  block x hx := by
    rcases List.mem_cons.1 hx with rfl | hx
    · exact ⟨b, hb, hptr, hsize⟩
    · exact ho.block x (List.mem_filter.1 hx).1
  nodup := by
    rw [List.map_cons, List.nodup_cons]
    refine ⟨fun hin => ?_, ho.nodup.sublist (List.filter_sublist.map _)⟩
    obtain ⟨x, hx, hxp⟩ := List.mem_map.1 hin
    exact of_decide_eq_true (List.mem_filter.1 hx).2 hxp

/-- The bytes that `memcpy` reads, where they are written. -/
theorem moved_store {m : Memory} {src dst : ℕ} :
    Moved m (store m dst ((List.range n).map fun i => m (src + i))) src dst n := by
  intro i hi
  refine holds_store (m := m) i (m (src + i)) ?_
  rw [List.getElem?_map, List.getElem?_range hi]
  rfl

theorem returns_memcpy {src dst : ℕ} {Q : Unit → MmHeap → Prop} (h : H.Inside src n) :
    Returns (memcpy dst src n) H Q ↔
      Returns (storeBytes dst ((List.range n).map fun i => H.mem (src + i))) H Q := by
  unfold memcpy
  rw [returns_get_bind, if_pos h]

/-- `mm_realloc` with a new block: the bytes are copied, and the old block is freed. -/
theorem Owned.replaced {r size : ℕ} (ho : Owned live bs)
    (hb : b ∈ used bs) (hptr : p = b.addr + dataOffset) (hmem : (p, r) ∈ live) (hr : r ≤ b.size)
    (hsize : b.size < size) (ha : Allocated H bs size H' bs' c) :
    Returns (do
      let currentSize ← getSize b.addr
      memcpy (c.addr + dataOffset) p currentSize
      mmFree p
      return some (c.addr + dataOffset)) H' fun res H'' =>
        res = some (c.addr + dataOffset) ∧
        (∃ bs, Shape H'' bs ∧
          Owned ((c.addr + dataOffset, size) :: live.filter fun x => x.1 ≠ p) bs) ∧
        (∀ x ∈ live, x.1 ≠ p → Moved H.mem H''.mem x.1 x.1 x.2) ∧
        Moved H.mem H''.mem p (c.addr + dataOffset) (min r size) := by
  have hb' : b ∈ used bs' := ha.inUse.mem_iff.2 (List.mem_cons_of_mem _ hb)
  have hne : c.addr + dataOffset ≠ p := by
    have := ha.ptr_ne hb
    omega
  have ho' := ho.allocated ha
  have hinside : H'.Inside p b.size := by
    rw [hptr]
    exact ha.shape.inside (mem_used.1 hb').1 (Nat.le_refl _)
  have hlen : 0 + ((List.range b.size).map fun i => H'.mem (p + i)).length ≤ size := by
    rw [List.length_map, List.length_range]
    omega
  have hcopied := ho'.stored ha.shape List.mem_cons_self hlen
  rw [Nat.add_zero] at hcopied
  rw [returns_getSize ha.shape (mem_used.1 hb').1]
  refine ((returns_memcpy hinside).2 hcopied).seq ?_
  rintro _ H₂ ⟨rfl, hshape, hmoved₂⟩
  refine (ho'.release hshape (List.mem_cons_of_mem _ hmem)).seq ?_
  rintro _ H₃ ⟨⟨bs₃, hshape₃, ho₃⟩, hmoved₃⟩
  rw [List.filter_cons_of_pos (by exact decide_eq_true hne)] at ho₃
  refine returns_pure.2 ⟨rfl, ⟨bs₃, hshape₃, ho₃⟩, fun x hx hxp => ?_, ?_⟩
  · have hxc : x.1 ≠ c.addr + dataOffset := by
      obtain ⟨d, hd, hxd, -⟩ := ho.block x hx
      have := ha.ptr_ne hd
      omega
    have hx' := List.mem_cons_of_mem (c.addr + dataOffset, size) hx
    exact ((ho.moved ha.same x hx).trans (hmoved₂ x hx' hxc)).trans (hmoved₃ x hx' hxp)
  · have hkept : Moved H.mem H'.mem p p r := ho.moved ha.same _ hmem
    have hnew := hmoved₃ _ List.mem_cons_self hne
    exact ((hkept.mono (Nat.min_le_left r size)).trans (moved_store.mono (by omega))).trans
      (hnew.mono (Nat.min_le_right r size))

theorem liveAfter_realloc {ptr : ℕ} {size : UInt64} :
    (HeapCall.realloc ptr size).liveAfter R (some p) = (p, size.toNat) :: R.without ptr :=
  rfl

theorem liveAfter_realloc_none {ptr : ℕ} {size : UInt64} (hsize : size ≠ 0) :
    (HeapCall.realloc ptr size).liveAfter R none = R.live :=
  if_pos ⟨rfl, hsize⟩

theorem liveAfter_realloc_zero {ptr : ℕ} :
    (HeapCall.realloc ptr 0).liveAfter R none = R.without ptr :=
  rfl

/-- `realloc` keeps the bytes, under its condition. -/
theorem realloc_done {ptr : ℕ} {size : UInt64} (h : Shape R.heap bs) (ho : Owned R.live bs)
    (hvalid : R.Valid ptr) (hm : (HeapCall.realloc ptr size).Meets R) :
    Returns (HeapCall.realloc ptr size).perform R.heap (CallDone R (.realloc ptr size)) := by
  have hsize : size = 0 ↔ size.toNat = 0 := by
    rw [← UInt64.toNat_inj]
    rfl
  change Returns (mmRealloc ptr size.toNat) R.heap _
  unfold mmRealloc
  rcases hvalid with rfl | ⟨r, hmem⟩
  · -- as `mm_malloc`
    rw [if_pos rfl]
    refine (malloc_done h ho (hm.1 rfl)).mono ?_
    rintro res H' ⟨hbs, hmoved, -⟩
    refine ⟨?_, hmoved, fun ptr size r hcall hmem => ?_⟩
    · cases res with
      | some p =>
        rw [liveAfter_realloc, HeapUse.without_zero ho]
        exact hbs
      | none =>
        by_cases hzero : size = 0
        · subst hzero
          rw [liveAfter_realloc_zero, HeapUse.without_zero ho]
          exact hbs
        · rw [liveAfter_realloc_none hzero]
          exact hbs
    · cases hcall
      exact absurd rfl (ho.ptr_ne_zero hmem)
  · have hptr := ho.ptr_ne_zero hmem
    dsimp only at hptr
    rw [if_neg hptr]
    split_ifs with hzero
    · -- as `mm_free`
      refine (ho.release h hmem).seq ?_
      rintro _ H' ⟨hbs, hmoved⟩
      refine returns_pure.2 ⟨?_, hmoved, fun ptr size r hcall _ hne => ?_⟩
      · rw [hsize.2 hzero, liveAfter_realloc_zero]
        exact hbs
      · cases hcall
        exact absurd (hsize.2 hzero) hne
    · obtain ⟨b, hb, hpb, hr⟩ := ho.block _ hmem
      dsimp only at hpb hr
      have hcur : ptr - dataOffset = b.addr := by omega
      rw [hcur, returns_getSize h (mem_used.1 hb).1]
      split_ifs with hle
      · -- the block is large enough
        refine returns_pure.2 ⟨⟨bs, h, ?_⟩, fun x _ _ i _ => rfl, fun ptr size r' hcall _ i _ => ?_⟩
        · rw [liveAfter_realloc]
          exact ho.resized hb hpb hle
        · cases hcall
          rfl
      · have hfield : numberAt R.heap.mem b.addr 8 = b.size :=
          (h.chain.fields (mem_used.1 hb).1).size
        have hmeets := hm.2 hptr (by rw [hcur, hfield]; omega)
        refine (mmMalloc_returns h hmeets).seq ?_
        rintro res H' (⟨rfl, hshape, hsame⟩ | ⟨bs', c, rfl, ha⟩)
        · refine returns_pure.2 ⟨⟨bs, hshape, ?_⟩, fun x _ _ i _ => ?_,
            fun ptr size r' hcall _ _ i _ => ?_⟩
          · rw [liveAfter_realloc_none fun h0 => hzero (hsize.1 h0)]
            exact ho
          · rw [hsame]
          · rw [hsame]
        · refine (ho.replaced hb hpb hmem hr (by omega) ha).mono ?_
          rintro _ H'' ⟨rfl, hbs, hmoved, hbytes⟩
          refine ⟨?_, hmoved, fun ptr size r' hcall hmem' => ?_⟩
          · rw [liveAfter_realloc]
            exact hbs
          · cases hcall
            rw [ho.size_unique hmem' hmem]
            exact hbytes

/-- **Every call**, where the condition is met. -/
theorem HeapCall.done {call : HeapCall} (hinv : HeapInv R) (henabled : call.Enabled R)
    (hm : call.Meets R) : Returns call.perform R.heap (CallDone R call) := by
  obtain ⟨bs, h, ho⟩ := hinv
  cases call with
  | malloc size => exact malloc_done h ho hm
  | realloc ptr size => exact realloc_done h ho henabled hm
  | free ptr => exact free_done h ho henabled
  | write ptr off bytes => exact write_done h ho henabled

theorem CallDone.keeps {call : HeapCall} {res : Option ℕ} (h : CallDone R call res H) :
    CallKeeps R call res H where
  separated := by
    obtain ⟨⟨bs, hshape, ho⟩, -⟩ := h
    exact ho.separated hshape
  kept := h.2.1
  bytes := h.2.2

/-- A step keeps the invariant. -/
theorem HeapInv.step {R' : HeapUse} {call : HeapCall} (hinv : HeapInv R)
    (hm : call.Enabled R → call.Meets R) (hstep : HeapUseStep R call R') : HeapInv R' := by
  obtain ⟨henabled, res, H, hrun, rfl⟩ := hstep
  exact ((HeapCall.done hinv henabled (hm henabled)).of_run hrun).1

/-- Before the first call. -/
structure HeapUse.Start (R : HeapUse) : Prop where
  noBlock : R.heap.listHead = 0
  noPayload : R.live = []
  base : 0 < R.heap.base ∧ R.heap.base ≤ R.heap.brk
  below : R.heap.brk ≤ R.heap.limit
  small : R.heap.limit < 2 ^ 63

theorem HeapUse.Start.inv (h : R.Start) : HeapInv R := by
  refine ⟨[], ⟨h.noBlock, .nil, nofun, nofun, h.base, h.below, h.small⟩, ?_, ?_⟩
  · rw [h.noPayload]
    exact nofun
  · rw [h.noPayload]
    exact .nil

/-- **The payloads are kept apart in a run in which no call splits a block** or asks for a
size that wraps around. -/
theorem mmAlloc_separated (hstart : R.Start) (calls : List HeapCall)
    (hmeets : Throughout HeapUseStep (fun R call => call.Enabled R → call.Meets R) R calls) :
    Throughout HeapUseStep (fun R call => call.Enabled R → call.Safe R) R calls := by
  refine hmeets.imp (I := HeapInv) (fun hinv hm hstep => hinv.step hm hstep) ?_ hstart.inv
  exact fun hinv hm henabled => (HeapCall.done hinv henabled (hm henabled)).mono
    fun _ _ hdone => hdone.keeps

/-- A heap at byte 16 of a megabyte. -/
def heapStart : HeapUse := ⟨⟨fun _ => 0, 16, 16, 2 ^ 20, fun _ => true, 0⟩, []⟩

theorem heapStart_start : heapStart.Start :=
  ⟨rfl, rfl, by decide, by decide, by decide⟩

/-- No block of the list, which has `k` blocks at most, has more than `n` bytes. -/
def sizesBelow (m : Memory) (n : ℕ) : ℕ → ℕ → Bool
  | 0, a => a == 0
  | k + 1, a =>
    a == 0 || (decide (numberAt m a 8 ≤ n) && sizesBelow m n k (numberAt m (a + 8) 8))

theorem Chain.size_le {m : Memory} {n k a : ℕ} {bs : List Block} (h : Chain m a bs)
    (hpos : ∀ b ∈ bs, 0 < b.addr) (hbelow : sizesBelow m n k a = true) : ∀ b ∈ bs, b.size ≤ n := by
  induction bs generalizing a k with
  | nil => exact nofun
  | cons c bs ih =>
    obtain ⟨rfl, hin, hrest⟩ := h
    have hc := Nat.ne_of_gt (hpos c List.mem_cons_self)
    cases k with
    | zero => exact absurd (beq_iff_eq.1 hbelow) hc
    | succ k =>
      unfold sizesBelow at hbelow
      rw [Bool.or_eq_true, Bool.and_eq_true, decide_eq_true_eq, hin.size] at hbelow
      obtain ⟨hsize, hbelow⟩ := hbelow.resolve_left fun h0 => hc (beq_iff_eq.1 h0)
      rintro b (_ | ⟨_, hb⟩)
      · exact hsize
      · exact ih hrest (fun b hb => hpos b (List.mem_cons_of_mem c hb)) hbelow b hb

/-- Where every block is small, none is split. -/
theorem MmHeap.mallocMeets_small {S : MmHeap} {size k : ℕ} (hsize : size + headerSize < 2 ^ 64)
    (hbelow : sizesBelow S.mem (size + headerSize) k S.listHead = true) : S.MallocMeets size :=
  fun _ _ _ => ⟨hsize, fun _ hshape b hfind => hshape.chain.size_le
    (fun _ hc => hshape.addr_pos hc) hbelow b (List.mem_of_find?_eq_some hfind)⟩

/-- Two blocks, the first of which is freed. -/
def firstFreed : OnMmHeap Unit := do
  let _ ← mmMalloc 100
  let _ ← mmMalloc 80
  mmFree 44

set_option maxRecDepth 20000 in
theorem run_firstFreed :
    ((mmMalloc 100).run heapStart.heap).map (fun r => sizesBelow r.2.mem 112 1 r.2.listHead) =
      some true ∧
    (firstFreed.run heapStart.heap).map (fun r => (sizesBelow r.2.mem 132 2 r.2.listHead,
      ((mmMalloc 100).run r.2).map Prod.fst)) = some (true, some (some 44)) := by
  decide +kernel

/-- Two blocks, the first of which is freed and used again. -/
def reuseCalls : List HeapCall := [.malloc 100, .malloc 80, .free 44, .malloc 100]

theorem reuseCalls_meets : Throughout HeapUseStep (fun R call => call.Enabled R → call.Meets R)
    heapStart reuseCalls := by
  obtain ⟨hone, htwo⟩ := run_firstFreed
  refine ⟨fun _ => MmHeap.mallocMeets_small (k := 0) (by decide) rfl, ?_⟩
  rintro R₁ ⟨-, p, H₁, hrun₁, rfl⟩
  change (mmMalloc 100).run heapStart.heap = some (p, H₁) at hrun₁
  rw [hrun₁] at hone
  refine ⟨fun _ => MmHeap.mallocMeets_small (by decide) (Option.some.inj hone), ?_⟩
  rintro R₂ ⟨-, q, H₂, hrun₂, rfl⟩
  change (mmMalloc 80).run H₁ = some (q, H₂) at hrun₂
  refine ⟨fun _ => trivial, ?_⟩
  rintro R₃ ⟨-, _, H₃, hrun₃, rfl⟩
  obtain ⟨_, _, hfree, hrun₃⟩ := run_bind_cases hrun₃
  cases hrun₃
  have hfreed : firstFreed.run heapStart.heap = some ((), H₃) := by
    unfold firstFreed
    rw [run_bind_of_run hrun₁, run_bind_of_run hrun₂]
    exact hfree
  rw [hfreed] at htwo
  exact ⟨fun _ => MmHeap.mallocMeets_small (by decide) (Prod.ext_iff.1 (Option.some.inj htwo)).1,
    fun _ _ => trivial⟩

/-- **A block used again**: the payloads stay apart. -/
theorem mmAlloc_separated_reuse : Throughout HeapUseStep
    (fun R call => call.Enabled R → call.Safe R) heapStart reuseCalls :=
  mmAlloc_separated heapStart_start _ reuseCalls_meets

/-- A block of 100 bytes is freed and split. -/
def splitCalls : OnMmHeap (Option ℕ × Option ℕ) := do
  let p ← mmMalloc 100
  mmFree 44
  let q ← mmMalloc 50
  return (p, q)

set_option maxRecDepth 20000 in
/-- The block behind the first one then begins at byte 66, within the 50 bytes at 44. -/
theorem run_splitCalls : (splitCalls.run heapStart.heap).map (fun r =>
    (r.1, r.2.listHead, numberAt r.2.mem (r.2.listHead + 8) 8)) =
      some ((some 44, some 44), 16, 66) := by
  decide +kernel

/-- **The payloads are not kept apart in every run.** -/
theorem not_heapSafe : ¬∀ (R : HeapUse), R.Start → ∀ calls : List HeapCall,
    Throughout HeapUseStep (fun R call => call.Enabled R → call.Safe R) R calls := by
  intro h
  obtain ⟨⟨⟨p, q⟩, H₃⟩, hrun, hres⟩ := Option.map_eq_some_iff.1 run_splitCalls
  obtain ⟨p', H₁, hrun₁, hrun⟩ := run_bind_cases hrun
  obtain ⟨_, H₂, hrun₂, hrun⟩ := run_bind_cases hrun
  obtain ⟨q', H₃', hrun₃, hrun⟩ := run_bind_cases hrun
  cases hrun
  simp only [Prod.mk.injEq] at hres
  obtain ⟨⟨rfl, rfl⟩, hhead, hnext⟩ := hres
  have hsafe := h heapStart heapStart_start [.malloc 100, .free 44, .malloc 50]
  have hsafe₁ := hsafe.2 _ ⟨trivial, some 44, H₁, hrun₁, rfl⟩
  have hsafe₂ := hsafe₁.2 _ ⟨.inr ⟨100, List.mem_cons_self⟩, none, H₂, run_bind_of_run hrun₂, rfl⟩
  have hkeeps := (hsafe₂.1 trivial).of_run hrun₃
  obtain ⟨bs, hshape, hbeside⟩ := hkeeps.separated.headers
  have hchain := hshape.chain
  rw [hhead] at hchain hnext
  cases bs with
  | nil => cases hchain
  | cons b bs =>
    obtain ⟨hb, -, hchain⟩ := hchain
    rw [← hb, hnext] at hchain
    cases bs with
    | nil => cases hchain
    | cons c bs =>
      have hc : 66 = c.addr := hchain.1
      have hapart : Beside 44 50 c.addr dataOffset :=
        hbeside (44, 50) List.mem_cons_self c (List.mem_cons_of_mem _ List.mem_cons_self)
      unfold Beside dataOffset at hapart
      omega

end HwMemory
end CS162

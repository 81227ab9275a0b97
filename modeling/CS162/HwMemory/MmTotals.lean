/-
# What the calls do to the list of blocks

`mm_free` adds the size of a free block to that of the one before it and forgets the header between
them, so the list loses 32 bytes each time.  Where no block next to the freed one is free the list
keeps its bytes, and so do the calls that take a block of the list (`mmAlloc_conserves`).

Free blocks are all zero bytes: `mm_free` clears them after it has joined them, and `mm_malloc`
touches no payload.  So a payload that `mm_malloc` returns is zero, in a run in which no call splits
a block (`mmAlloc_zeroed`).
-/

import CS162.HwMemory.MmReuse

namespace CS162
namespace HwMemory

open CS162.Basis

variable {S : MmHeap} {R : HeapUse} {b c : Block} {bs bs' pre post : List Block} {p n : ℕ}

/-- **`mm_realloc` of a block in use**, by its cases. -/
theorem mmRealloc_rule {Q : Option ℕ → MmHeap → Prop} (h : Shape S bs) (hb : b ∈ used bs)
    (hfree : n = 0 → Returns (mmFree (b.addr + dataOffset)) S fun _ S' => Q none S')
    (hstay : n ≠ 0 → n ≤ b.size → Q (some (b.addr + dataOffset)) S)
    (hmeets : n ≠ 0 → b.size < n → S.MallocMeets n)
    (hfail : ∀ S', n ≠ 0 → Shape S' bs → S'.mem = S.mem → Q none S')
    (hmoved : ∀ S' bs' c bytes, n ≠ 0 → b.size < n →
      (mmMalloc n).run S = some (some (c.addr + dataOffset), S') → Placed S bs n S' bs' c →
      Shape { S' with mem := store S'.mem (c.addr + dataOffset) bytes } bs' →
      bytes.length ≤ c.size →
      Returns (mmFree (b.addr + dataOffset))
        { S' with mem := store S'.mem (c.addr + dataOffset) bytes }
        fun _ S'' => Q (some (c.addr + dataOffset)) S'') :
    Returns (mmRealloc (b.addr + dataOffset) n) S Q := by
  have hmem := (mem_used.1 hb).1
  unfold mmRealloc
  rw [if_neg (by unfold dataOffset; omega)]
  split_ifs with hzero
  · exact (hfree hzero).seq fun _ _ hQ => returns_pure.2 hQ
  · rw [Nat.add_sub_cancel, returns_getSize h hmem]
    split_ifs with hle
    · exact returns_pure.2 (hstay hzero hle)
    · have hlt : b.size < n := Nat.lt_of_not_le hle
      obtain ⟨res, S', hrun, hdone⟩ := mmMalloc_places h (hmeets hzero hlt)
      rw [returns_bind_of_run hrun]
      rcases hdone with ⟨rfl, hshape, hsame⟩ | ⟨bs', c, rfl, hc⟩
      · exact returns_pure.2 (hfail S' hzero hshape hsame)
      · have hb' := (mem_used.1 (hc.inUse.mem_iff.2 (List.mem_cons_of_mem c hb))).1
        have hc' := (mem_used.1 (hc.inUse.mem_iff.2 List.mem_cons_self)).1
        have hinside : S'.Inside (b.addr + dataOffset) b.size :=
          hc.shape.inside hb' (Nat.le_refl _)
        obtain ⟨bytes, hbytes⟩ : ∃ bytes, bytes =
            (List.range b.size).map fun i => S'.mem (b.addr + dataOffset + i) := ⟨_, rfl⟩
        have hlength : bytes.length = b.size := by
          rw [hbytes, List.length_map, List.length_range]
        have hlen : dataOffset + bytes.length ≤ 28 + c.size := by
          have hsize := hc.size
          unfold dataOffset
          omega
        obtain ⟨pre, post, rfl⟩ := List.append_of_mem hc'
        have hwritten := hc.shape.written (Nat.le_refl dataOffset) hlen
        dsimp only
        rw [returns_getSize hc.shape hb', returns_bind_congr (y := storeBytes (c.addr + dataOffset) bytes)]
        · rw [returns_storeBytes (hc.shape.inside_store hc' hlen)]
          refine (hmoved S' _ c bytes hzero hlt hrun hc hwritten ?_).seq
            fun _ _ hQ => returns_pure.2 hQ
          unfold dataOffset at hlen
          omega
        · unfold memcpy
          rw [run_bind_of_run (a := S') (t := S') rfl, if_pos hinside, hbytes]

/-! ### The bytes of the blocks -/

/-- One block from the first one's header to the end of the last one's payload. -/
def Spans (bs bs' : List Block) : Prop :=
  ∃ first last b, bs.head? = some first ∧ bs.getLast? = some last ∧ bs' = [b] ∧
    b.addr = first.addr ∧ b.fin = last.fin

/-- **The list keeps its bytes**, unless a block is put behind it, and it is one block once all blocks
are free. -/
structure Conserves (R : HeapUse) (res : Option ℕ) (H : MmHeap) : Prop where
  total : ∀ bs, Shape R.heap bs → (∀ p, res = some p → ∃ b ∈ bs, p = b.addr + dataOffset) →
    ∃ bs', Shape H bs' ∧ totalOf bs' = totalOf bs
  whole : ∀ bs, Shape R.heap bs → bs ≠ [] →
    ∃ bs', Shape H bs' ∧ ((∀ b ∈ bs', b.free = true) → Spans bs bs')

/-- The condition on a call: no block is split, no size wraps around, and no block next to one that is
freed is free. -/
def HeapCall.Conserving (R : HeapUse) : HeapCall → Prop
  | malloc size => R.heap.MallocMeets size.toNat
  | realloc ptr size =>
    (HeapCall.realloc ptr size).Meets R ∧ (ptr ≠ 0 → size = 0 → R.heap.Alone ptr) ∧
      -- `mm_realloc` frees the block in the heap that its `mm_malloc` leaves
      ∀ q H, ptr ≠ 0 → size ≠ 0 → (mmMalloc size.toNat).run R.heap = some (some q, H) → H.Alone ptr
  | free ptr => R.heap.Alone ptr
  | write _ _ _ => True

/-- The blocks after a call: those that were there, and perhaps a new one in use. -/
inductive Kept (bs : List Block) (res : Option ℕ) (bs' : List Block) : Prop
  | same (h : Alike bs bs')
  | grown {as : List Block} {c : Block} (h : Alike bs as) (hbs : bs' = as ++ [c])
      (hused : c.free = false) (hres : res = some (c.addr + dataOffset))
      (hnew : ∀ b ∈ bs, b.addr ≠ c.addr)

/-- What a call is to leave. -/
def CallKept (bs : List Block) (res : Option ℕ) (H : MmHeap) : Prop :=
  ∃ bs', Shape H bs' ∧ Spaced bs' ∧ Kept bs res bs'

theorem Alike.spans (h : Alike bs [b]) : Spans bs [b] := by
  unfold Alike at h
  rw [List.map_singleton] at h
  obtain ⟨c, rfl, hc⟩ := List.map_eq_singleton_iff.1 h.symm
  obtain ⟨haddr, hsize⟩ := Prod.mk.inj hc
  exact ⟨c, c, b, rfl, rfl, rfl, haddr.symm, by unfold Block.fin; rw [haddr, hsize]⟩

/-- A call that keeps the blocks conserves their bytes. -/
theorem CallKept.conserves {res : Option ℕ} {H : MmHeap} (h : Shape R.heap bs)
    (hkept : CallKept bs res H) : Conserves R res H where
  total := by
    intro bs₁ h₁ hres
    obtain ⟨bs', hshape, -, hkept⟩ := hkept
    rw [h₁.unique h] at hres ⊢
    refine ⟨bs', hshape, ?_⟩
    cases hkept with
    | same halike => exact halike.total
    | grown _ _ _ hsome hnew =>
      obtain ⟨b, hb, heq⟩ := hres _ hsome
      exact absurd (by omega) (hnew b hb)
  whole := by
    intro bs₁ h₁ hne
    obtain ⟨bs', hshape, hspaced, hkept⟩ := hkept
    rw [h₁.unique h] at hne ⊢
    refine ⟨bs', hshape, fun hfree => ?_⟩
    cases hkept with
    | same halike =>
      have hlength := hspaced.length_le hfree
      cases bs' with
      | nil => exact absurd (List.map_eq_nil_iff.1 halike.symm) hne
      | cons b bs' =>
        have hnil : bs' = [] := by
          rw [List.length_cons] at hlength
          exact List.length_eq_zero_iff.1 (by omega)
        subst hnil
        exact halike.spans
    | grown _ hbs hused _ _ =>
      have hc := hfree _ (hbs ▸ List.mem_append_right _ List.mem_cons_self)
      exact absurd (hused.symm.trans hc) Bool.false_ne_true

/-- A block that is found, or a new one. -/
theorem Placed.kept_blocks {S' : MmHeap} (h : Placed S bs n S' bs' b) (hspaced : Spaced bs)
    (hshape : Shape S bs) : CallKept bs (some (b.addr + dataOffset)) S' := by
  refine ⟨bs', h.shape, ?_⟩
  rcases h.place with ⟨pre, post, rfl, rfl⟩ | ⟨rfl, -, -, -⟩
  · exact ⟨hspaced.flag_used h.unused, .same (Alike.flag b.free)⟩
  · refine ⟨hspaced.append_used h.unused, .grown (.refl bs) rfl h.unused rfl fun d hd => ?_⟩
    have hapart := (List.pairwise_append.1 h.shape.apart).2.2 d hd b List.mem_cons_self
    have hlt := d.addr_lt_fin
    omega

/-- A block between blocks in use is freed. -/
theorem Shape.kept_free (h : Shape S (pre ++ b :: post)) (hspaced : Spaced (pre ++ b :: post))
    (halone : (∀ c ∈ pre.getLast?, c.free = false) ∧ ∀ c ∈ post.head?, c.free = false) :
    Returns (mmFree (b.addr + dataOffset)) S fun _ S' =>
      Shape S' (pre ++ { b with free := true } :: post) ∧
        Spaced (pre ++ { b with free := true } :: post) := by
  refine (mmFree_keeps h hspaced halone.1 halone.2).mono ?_
  rintro _ S' ⟨-, hshape⟩
  exact ⟨hshape, hspaced.flag_free halone.1 halone.2⟩

/-- A block is placed, and another one is freed. -/
theorem Placed.kept_freed {S' T : MmHeap} (h : Placed S bs n S' bs' c) (hspaced : Spaced bs)
    (hshape : Shape S bs) (hb : b ∈ used bs) (halone : S'.Alone (b.addr + dataOffset))
    (hT : Shape T bs') : Returns (mmFree (b.addr + dataOffset)) T fun _ T' =>
      CallKept bs (some (c.addr + dataOffset)) T' := by
  obtain ⟨bs₁, hshape', hspaced', -⟩ := h.kept_blocks hspaced hshape
  rw [← h.shape.unique hshape'] at hspaced'
  have hb' := (mem_used.1 (h.inUse.mem_iff.2 (List.mem_cons_of_mem c hb))).1
  rcases h.place with ⟨pre, post, rfl, rfl⟩ | ⟨rfl, -, -, -⟩
  · obtain ⟨pre', post', hsplit⟩ := List.append_of_mem hb'
    have halike : Alike (pre ++ { c with free := true } :: post) (pre ++ c :: post) :=
      Alike.flag c.free
    have hkept := h.shape
    rw [hsplit] at hT hspaced' halike hkept
    refine (hT.kept_free hspaced' (halone _ _ _ hkept rfl)).mono fun _ T' hdone => ?_
    exact ⟨_, hdone.1, hdone.2, .same (halike.trans (Alike.flag true))⟩
  · obtain ⟨pre, post, rfl⟩ := List.append_of_mem (mem_used.1 hb).1
    have hassoc : pre ++ b :: post ++ [c] = pre ++ b :: (post ++ [c]) := by simp
    have hkept := h.shape
    have hnew : ∀ d ∈ pre ++ b :: post, d.addr ≠ c.addr := fun d hd => by
      have hapart := (List.pairwise_append.1 hkept.apart).2.2 d hd c List.mem_cons_self
      have hlt := d.addr_lt_fin
      omega
    rw [hassoc] at hT hspaced' hkept
    refine (hT.kept_free hspaced' (halone _ _ _ hkept rfl)).mono fun _ T' hdone => ?_
    refine ⟨_, hdone.1, hdone.2, .grown (Alike.flag true) ?_ h.unused rfl hnew⟩
    simp

theorem Conserving.malloc {size : UInt64} (h : Shape R.heap bs) (hspaced : Spaced bs)
    (hm : R.heap.MallocMeets size.toNat) :
    Returns (mmMalloc size.toNat) R.heap (CallKept bs) := by
  refine (mmMalloc_places h hm).mono ?_
  rintro res S' (⟨rfl, hshape, -⟩ | ⟨bs', b, rfl, hb⟩)
  · exact ⟨bs, hshape, hspaced, .same (.refl bs)⟩
  · exact hb.kept_blocks hspaced h

theorem Conserving.free {live : List (ℕ × ℕ)} {r : ℕ} (h : Shape S bs) (hspaced : Spaced bs)
    (ho : Owned live bs) (hmem : (p, r) ∈ live) (halone : S.Alone p) (res : Option ℕ) :
    Returns (mmFree p) S fun _ S' => CallKept bs res S' := by
  obtain ⟨b, hb, hptr, -⟩ := ho.block _ hmem
  dsimp only at hptr
  subst hptr
  obtain ⟨pre, post, rfl⟩ := List.append_of_mem (mem_used.1 hb).1
  refine (h.kept_free hspaced (halone _ _ _ h rfl)).mono fun _ S' hdone => ?_
  exact ⟨_, hdone.1, hdone.2, .same (Alike.flag true)⟩

/-- `realloc` keeps the blocks, under the condition. -/
theorem Conserving.realloc {size : UInt64} {r : ℕ} (h : Shape R.heap bs) (hspaced : Spaced bs)
    (ho : Owned R.live bs) (hmem : (p, r) ∈ R.live)
    (hc : (HeapCall.realloc p size).Conserving R) :
    Returns (mmRealloc p size.toNat) R.heap (CallKept bs) := by
  obtain ⟨hm, halone, hmoved⟩ := hc
  have hp := ho.ptr_ne_zero hmem
  dsimp only at hp
  have hzero : size = 0 ↔ size.toNat = 0 := by
    rw [← UInt64.toNat_inj]
    rfl
  obtain ⟨b, hb, hptr, -⟩ := ho.block _ hmem
  dsimp only at hptr
  subst hptr
  refine mmRealloc_rule h hb (fun hsize => ?_) (fun _ _ => ?_) (fun hsize hlt => ?_)
    (fun S' _ hshape _ => ?_) fun S' bs' c bytes hsize hlt hrun hplaced hshape _ => ?_
  · exact Conserving.free h hspaced ho hmem (halone hp (hzero.2 hsize)) none
  · exact ⟨bs, h, hspaced, .same (.refl bs)⟩
  · refine hm.2 hp ?_
    rw [Nat.add_sub_cancel, (h.chain.fields (mem_used.1 hb).1).size]
    exact hlt
  · exact ⟨bs, hshape, hspaced, .same (.refl bs)⟩
  · exact hplaced.kept_freed hspaced h hb
      (hmoved _ S' hp (fun heq => hsize (hzero.1 heq)) hrun) hshape

/-- **Every call**, where the condition is met. -/
theorem HeapCall.kept {call : HeapCall} (h : Shape R.heap bs) (hspaced : Spaced bs)
    (ho : Owned R.live bs) (henabled : call.Enabled R) (hc : call.Conserving R) :
    Returns call.perform R.heap (CallKept bs) := by
  have hsame : ∀ res, CallKept bs res R.heap := fun _ => ⟨bs, h, hspaced, .same (.refl bs)⟩
  cases call with
  | malloc size => exact Conserving.malloc h hspaced hc
  | realloc ptr size =>
    rcases henabled with rfl | ⟨r, hmem⟩
    · change Returns (mmRealloc 0 size.toNat) R.heap _
      unfold mmRealloc
      rw [if_pos rfl]
      exact Conserving.malloc h hspaced (hc.1.1 rfl)
    · exact Conserving.realloc h hspaced ho hmem hc
  | free ptr =>
    change Returns (mmFree ptr >>= fun _ => pure none) R.heap _
    rcases henabled with rfl | ⟨r, hmem⟩
    · exact returns_pure.2 (hsame none)
    · exact (Conserving.free h hspaced ho hmem hc none).seq fun _ _ hdone => returns_pure.2 hdone
  | write ptr off bytes =>
    obtain ⟨r, hmem, hlen⟩ := henabled
    change Returns (storeBytes (ptr + off) bytes >>= fun _ => pure none) R.heap _
    refine (ho.stored h hmem hlen).seq ?_
    rintro _ H' ⟨-, hshape, -⟩
    exact returns_pure.2 ⟨bs, hshape, hspaced, .same (.refl bs)⟩

/-- What holds of runs whose calls meet the condition. -/
def SpacedInv (R : HeapUse) : Prop := ∃ bs, Shape R.heap bs ∧ Owned R.live bs ∧ Spaced bs

theorem HeapCall.Conserving.meets {call : HeapCall} (h : call.Conserving R) : call.Meets R := by
  cases call with
  | malloc size => exact h
  | realloc ptr size => exact h.1
  | free ptr => trivial
  | write ptr off bytes => trivial

theorem SpacedInv.step {R' : HeapUse} {call : HeapCall} (hinv : SpacedInv R)
    (hc : call.Enabled R → call.Conserving R) (hstep : HeapUseStep R call R') : SpacedInv R' := by
  obtain ⟨bs, h, ho, hspaced⟩ := hinv
  obtain ⟨henabled, res, H, hrun, rfl⟩ := hstep
  obtain ⟨⟨bs₁, h₁, ho₁⟩, -⟩ :=
    (HeapCall.done ⟨bs, h, ho⟩ henabled (hc henabled).meets).of_run hrun
  obtain ⟨bs₂, h₂, hspaced₂, -⟩ := (HeapCall.kept h hspaced ho henabled (hc henabled)).of_run hrun
  exact ⟨bs₁, h₁, ho₁, h₁.unique h₂ ▸ hspaced₂⟩

theorem HeapUse.Start.spaced (h : R.Start) : SpacedInv R := by
  refine ⟨[], h.shape, ?_, .nil⟩
  rw [h.noPayload]
  exact ⟨nofun, .nil⟩

/-- **The list conserves its bytes in a run in which no call splits a block**, asks for a size that
wraps around, or frees a block next to a free one. -/
theorem mmAlloc_conserves (hstart : R.Start) (calls : List HeapCall)
    (hmeets : Throughout HeapUseStep (fun R call => call.Enabled R → call.Conserving R) R calls) :
    Throughout HeapUseStep
      (fun R call => call.Enabled R → Returns call.perform R.heap (Conserves R)) R calls := by
  refine hmeets.imp (I := SpacedInv) (fun hinv hc hstep => hinv.step hc hstep) ?_ hstart.spaced
  rintro R call ⟨bs, h, ho, hspaced⟩ hc henabled
  exact (HeapCall.kept h hspaced ho henabled (hc henabled)).mono fun _ _ hkept => hkept.conserves h

/-- The first block of a heap meets the condition. -/
theorem heapStart_mallocMeets {size : ℕ} (hsize : size + headerSize < 2 ^ 64) :
    heapStart.heap.MallocMeets size := by
  refine fun _ _ _ => ⟨hsize, fun bs hshape b hfind => ?_⟩
  rw [hshape.unique heapStart_start.shape] at hfind
  cases hfind

/-- A block of 100 bytes is allocated and freed. -/
theorem mmAlloc_conserves_first : Throughout HeapUseStep
    (fun R call => call.Enabled R → Returns call.perform R.heap (Conserves R)) heapStart
      [.malloc 100, .free 44] := by
  refine mmAlloc_conserves heapStart_start _ ⟨fun _ => heapStart_mallocMeets (by decide), ?_⟩
  rintro R ⟨-, res, H, hrun, rfl⟩
  refine ⟨fun _ pre b post hshape _ => ?_, fun _ _ => trivial⟩
  have hempty := heapStart_start.shape
  have hone : ∃ c : Block, ∃ bs, Shape H bs ∧ (bs = [c] ∨ bs = []) := by
    rcases (mmMalloc_places hempty (heapStart_mallocMeets (by decide))).of_run hrun with
      ⟨-, hH, -⟩ | ⟨bs', c, -, hc⟩
    · exact ⟨b, [], hH, .inr rfl⟩
    · rcases hc.place with ⟨pre, post, hsplit, -⟩ | ⟨hbs', -, -, -⟩
      · simp at hsplit
      · exact ⟨c, bs', hc.shape, .inl hbs'⟩
  obtain ⟨c, bs, hbs, hone⟩ := hone
  have heq := hbs.unique hshape
  cases pre with
  | nil =>
    cases post with
    | nil => exact ⟨nofun, nofun⟩
    | cons d post => rcases hone with rfl | rfl <;> simp at heq
  | cons d pre => rcases hone with rfl | rfl <;> simp at heq

/-- Two blocks of 100 bytes; the first one is freed. -/
def freedFirst : OnMmHeap (Option ℕ × Option ℕ) := do
  let p ← mmMalloc 100
  let q ← mmMalloc 100
  mmFree 44
  return (p, q)

/-- What `freedFirst` leaves of the list. -/
def freedFirstList (r : (Option ℕ × Option ℕ) × MmHeap) : List ℕ :=
  [r.2.listHead, numberAt r.2.mem 16 8, numberAt r.2.mem 40 4, numberAt r.2.mem 24 8,
    numberAt r.2.mem 148 8, numberAt r.2.mem 172 4, numberAt r.2.mem 156 8, r.2.base, r.2.brk, r.2.limit]

set_option maxRecDepth 20000 in
theorem run_freedFirst : (freedFirst.run heapStart.heap).map (fun r => (r.1, freedFirstList r)) =
    some ((some 44, some 176), [16, 100, 1, 148, 100, 0, 0, 16, 280, 2 ^ 20]) := by
  decide +kernel

/-- The second one is freed as well. -/
def freedBoth : OnMmHeap Unit := do
  let _ ← freedFirst
  mmFree 176

set_option maxRecDepth 20000 in
/-- One block of 200 bytes is left. -/
theorem run_freedBoth : (freedBoth.run heapStart.heap).map
    (fun r => (r.2.listHead, numberAt r.2.mem 16 8, numberAt r.2.mem 24 8)) = some (16, 200, 0) := by
  decide +kernel

/-- The list after `freedFirst`. -/
theorem freedFirst_shape {r : (Option ℕ × Option ℕ) × MmHeap}
    (h : freedFirstList r = [16, 100, 1, 148, 100, 0, 0, 16, 280, 2 ^ 20]) :
    Shape r.2 [⟨16, 100, true⟩, ⟨148, 100, false⟩] := by
  unfold freedFirstList at h
  simp only [List.cons.injEq, and_true] at h
  obtain ⟨hhead, hsize, hfree, hnext, hsize', hfree', hnext', hbase, hbrk, hlimit⟩ := h
  refine ⟨?_, ?_, ?_, ?_, ?_, ?_, ?_⟩
  · refine ⟨hhead, ⟨hsize, hfree⟩, ?_⟩
    dsimp only
    rw [hnext]
    exact ⟨rfl, ⟨hsize', hfree'⟩, hnext'⟩
  · exact List.pairwise_pair.2 (by decide)
  · intro b hb
    rw [hbase]
    rcases List.mem_pair.1 hb with rfl | rfl <;> decide
  · intro b hb
    rw [hbrk]
    rcases List.mem_pair.1 hb with rfl | rfl <;> decide
  · rw [hbase, hbrk]
    decide
  · rw [hbrk, hlimit]
    decide
  · rw [hlimit]
    decide

/-- **The list does not conserve its bytes in every run.** -/
theorem not_conserves : ¬∀ (R : HeapUse), R.Start → ∀ calls : List HeapCall,
    Throughout HeapUseStep
      (fun R call => call.Enabled R → Returns call.perform R.heap (Conserves R)) R calls := by
  intro h
  obtain ⟨⟨pq, H₃⟩, hrun, hres⟩ := Option.map_eq_some_iff.1 run_freedFirst
  obtain ⟨⟨_, H₄⟩, hboth, hres₄⟩ := Option.map_eq_some_iff.1 run_freedBoth
  obtain ⟨_, _, hfirst, hrun₄⟩ := run_bind_cases hboth
  rw [hrun] at hfirst
  cases hfirst
  obtain ⟨p, H₁, hrun₁, hrun⟩ := run_bind_cases hrun
  obtain ⟨q, H₂, hrun₂, hrun⟩ := run_bind_cases hrun
  obtain ⟨_, H₃', hrun₃, hrun⟩ := run_bind_cases hrun
  cases hrun
  obtain ⟨hpq, hlist⟩ := Prod.mk.inj hres
  obtain ⟨rfl, rfl⟩ := Prod.mk.inj hpq
  obtain ⟨hhead, hrest⟩ := Prod.mk.inj hres₄
  obtain ⟨hsize, hnext⟩ := Prod.mk.inj hrest
  have hsafe := h heapStart heapStart_start [.malloc 100, .malloc 100, .free 44, .free 176]
  have hsafe₁ := hsafe.2 _ ⟨trivial, some 44, H₁, hrun₁, rfl⟩
  have hsafe₂ := hsafe₁.2 _ ⟨trivial, some 176, H₂, hrun₂, rfl⟩
  have hsafe₃ := hsafe₂.2 _ ⟨.inr ⟨100, List.mem_cons_of_mem _ List.mem_cons_self⟩,
    none, H₃, run_bind_of_run hrun₃, rfl⟩
  have hlive : (176, 100) ∈ [(176, 100), (44, 100)].filter fun x : ℕ × ℕ => x.1 ≠ 44 := by decide
  have hconserves := (hsafe₃.1 (.inr ⟨100, hlive⟩)).of_run (run_bind_of_run hrun₄)
  obtain ⟨bs', hshape, htotal⟩ := hconserves.total _ (freedFirst_shape hlist) nofun
  have hchain := hshape.chain
  dsimp only at hhead hsize hnext hchain
  rw [hhead] at hchain
  cases bs' with
  | nil => cases hchain
  | cons b bs' =>
    obtain ⟨hb, hin, hchain⟩ := hchain
    have hbsize := hin.size
    rw [← hb] at hbsize hchain
    rw [hnext] at hchain
    cases bs' with
    | nil =>
      rw [hsize] at hbsize
      unfold totalOf at htotal
      simp [headerSize, ← hbsize] at htotal
    | cons c bs' =>
      exact absurd hchain.1 (Nat.ne_of_lt (hshape.addr_pos (by simp)))

/-! ### Zero bytes -/

/-- **The payloads of free blocks are zero bytes.** -/
def FreeZeroed (S : MmHeap) : Prop :=
  ∀ bs, Shape S bs → ∀ b ∈ bs, b.free = true → b.Zeroed S.mem

theorem FreeZeroed.of_shape (h : Shape S bs) (hz : ∀ b ∈ bs, b.free = true → b.Zeroed S.mem) :
    FreeZeroed S := by
  intro bs' h' b hb
  rw [h'.unique h] at hb
  exact hz b hb

/-- `n` zero bytes at the pointer that `mm_malloc` returns. -/
def MmHeap.GivesZero (S : MmHeap) (n : ℕ) : Prop :=
  Returns (mmMalloc n) S fun res S' => ∀ p, res = some p → ∀ i < n, S'.mem (p + i) = 0

/-- The call runs `mm_malloc` on the size. -/
def HeapCall.Asks (R : HeapUse) (n : ℕ) : HeapCall → Prop
  | malloc size => n = size.toNat
  | realloc ptr size =>
    n = size.toNat ∧ (ptr = 0 ∨ size ≠ 0 ∧ numberAt R.heap.mem (ptr - dataOffset) 8 < n)
  | free _ | write _ _ _ => False

/-- Where a block is placed, free blocks stay zero and so is its payload. -/
theorem Placed.zeroed {S' : MmHeap} (h : Placed S bs n S' bs' b) (hshape : Shape S bs)
    (hz : FreeZeroed S) : FreeZeroed S' ∧ b.Zeroed S'.mem := by
  have hkept : ∀ d ∈ bs, d.free = true → d.Zeroed S'.mem := fun d hd hfree =>
    (hz bs hshape d hd hfree).congr (h.kept d hd)
  have hunused := h.unused
  rcases h.place with ⟨pre, post, rfl, rfl⟩ | ⟨rfl, -, hzero, -⟩
  · refine ⟨.of_shape h.shape fun d hd hfree => ?_, hkept { b with free := true } (by simp) rfl⟩
    rcases List.mem_append.1 hd with hd | hd
    · exact hkept d (List.mem_append_left _ hd) hfree
    · rcases List.mem_cons.1 hd with rfl | hd
      · exact absurd (hunused.symm.trans hfree) Bool.false_ne_true
      · exact hkept d (List.mem_append_right _ (List.mem_cons_of_mem _ hd)) hfree
  · refine ⟨.of_shape h.shape fun d hd hfree => ?_, hzero⟩
    rcases List.mem_append.1 hd with hd | hd
    · exact hkept d hd hfree
    · rw [List.mem_singleton.1 hd] at hfree
      exact absurd (hunused.symm.trans hfree) Bool.false_ne_true

theorem Block.Zeroed.bytes {m : Memory} (h : b.Zeroed m) (hn : n ≤ b.size) :
    ∀ i < n, m (b.addr + dataOffset + i) = 0 :=
  fun i hi => h _ (Nat.le_add_right _ i) (by unfold Block.fin; omega)

/-- **`mm_malloc` returns zero bytes**, where the condition is met. -/
theorem mmMalloc_zeroed (h : Shape S bs) (hz : FreeZeroed S) (hmeets : S.MallocMeets n) :
    Returns (mmMalloc n) S fun res S' =>
      FreeZeroed S' ∧ ∀ p, res = some p → ∀ i < n, S'.mem (p + i) = 0 := by
  refine (mmMalloc_places h hmeets).mono ?_
  rintro res S' (⟨rfl, hshape, hmem⟩ | ⟨bs', b, rfl, hb⟩)
  · refine ⟨.of_shape hshape fun d hd hfree => ?_, nofun⟩
    rw [hmem]
    exact hz bs h d hd hfree
  · obtain ⟨hfree, hpayload⟩ := hb.zeroed h hz
    refine ⟨hfree, fun p hp => ?_⟩
    cases hp
    exact hpayload.bytes hb.size

/-- **`mm_free` clears every free block**, the joined ones as well. -/
theorem mmFree_zeroed (h : Shape S (pre ++ b :: post)) :
    Returns (mmFree (b.addr + dataOffset)) S fun _ S' => FreeZeroed S' := by
  refine mmFree_of_loops h fun m₁ htidied₁ => ?_
  refine mergeLoops_tidied htidied₁.shape rfl fun m₂ bs₂ htidied₂ => ?_
  have hshape : Shape { S.freed b with mem := m₂ } ([] ++ bs₂) := htidied₂.shape
  have hclear := clearLoop_clears hshape nofun (Nat.lt_succ_of_le htidied₂.shape.length_le)
  rw [← htidied₂.shape.chain.head] at hclear
  refine hclear.mono ?_
  rintro _ S' ⟨-, hshape', hz⟩
  exact .of_shape hshape' hz

/-- The payload of a block in use is written. -/
theorem FreeZeroed.written {k : ℕ} {bytes : List UInt8} (hz : FreeZeroed S) (h : Shape S bs)
    (hb : b ∈ used bs) (hk : dataOffset ≤ k) (hlen : k + bytes.length ≤ 28 + b.size) :
    FreeZeroed { S with mem := store S.mem (b.addr + k) bytes } := by
  obtain ⟨hmem, hused⟩ := mem_used.1 hb
  obtain ⟨pre, post, rfl⟩ := List.append_of_mem hmem
  refine .of_shape (h.written hk hlen) fun d hd hfree => ?_
  have hother : d ∈ pre ++ post := by
    rcases List.mem_append.1 hd with hd | hd
    · exact List.mem_append_left _ hd
    · rcases List.mem_cons.1 hd with rfl | hd
      · exact absurd (hused.symm.trans hfree) Bool.false_ne_true
      · exact List.mem_append_right _ hd
  exact (hz _ h d hd hfree).congr (h.same_store hother hlen).data

/-- After `realloc` the free blocks are zeroed. -/
theorem realloc_freeZeroed {size : UInt64} {r : ℕ} (h : Shape R.heap bs) (hz : FreeZeroed R.heap)
    (ho : Owned R.live bs) (hmem : (p, r) ∈ R.live) (hm : (HeapCall.realloc p size).Meets R) :
    Returns (mmRealloc p size.toNat) R.heap fun _ H => FreeZeroed H := by
  have hp := ho.ptr_ne_zero hmem
  dsimp only at hp
  obtain ⟨b, hb, hptr, -⟩ := ho.block _ hmem
  dsimp only at hptr
  subst hptr
  refine mmRealloc_rule h hb (fun _ => ?_) (fun _ _ => hz) (fun _ hlt => hm.2 hp ?_)
    (fun S' _ hshape hsame => ?_) fun S' bs' c bytes _ _ _ hplaced hshape hlen => ?_
  · obtain ⟨pre, post, rfl⟩ := List.append_of_mem (mem_used.1 hb).1
    exact mmFree_zeroed h
  · rw [Nat.add_sub_cancel, (h.chain.fields (mem_used.1 hb).1).size]
    exact hlt
  · refine .of_shape hshape fun d hd hfree => ?_
    rw [hsame]
    exact hz bs h d hd hfree
  · obtain ⟨pre, post, rfl⟩ := List.append_of_mem
      (mem_used.1 (hplaced.inUse.mem_iff.2 (List.mem_cons_of_mem c hb))).1
    exact mmFree_zeroed hshape

/-- Every call keeps the free blocks zero. -/
theorem HeapCall.freeZeroed {call : HeapCall} (h : Shape R.heap bs) (hz : FreeZeroed R.heap)
    (ho : Owned R.live bs) (henabled : call.Enabled R) (hm : call.Meets R) :
    Returns call.perform R.heap fun _ H => FreeZeroed H := by
  cases call with
  | malloc size => exact (mmMalloc_zeroed h hz hm).mono fun _ _ hdone => hdone.1
  | realloc ptr size =>
    rcases henabled with rfl | ⟨r, hmem⟩
    · change Returns (mmRealloc 0 size.toNat) R.heap _
      unfold mmRealloc
      rw [if_pos rfl]
      exact (mmMalloc_zeroed h hz (hm.1 rfl)).mono fun _ _ hdone => hdone.1
    · exact realloc_freeZeroed h hz ho hmem hm
  | free ptr =>
    change Returns (mmFree ptr >>= fun _ => pure none) R.heap _
    rcases henabled with rfl | ⟨r, hmem⟩
    · exact returns_pure.2 hz
    · obtain ⟨b, hb, hptr, -⟩ := ho.block _ hmem
      dsimp only at hptr
      subst hptr
      obtain ⟨pre, post, rfl⟩ := List.append_of_mem (mem_used.1 hb).1
      exact (mmFree_zeroed h).seq fun _ _ hdone => returns_pure.2 hdone
  | write ptr off bytes =>
    obtain ⟨r, hmem, hlen⟩ := henabled
    obtain ⟨b, hb, hptr, hr⟩ := ho.block _ hmem
    dsimp only at hptr hr
    have hin : dataOffset + off + bytes.length ≤ 28 + b.size := by
      unfold dataOffset
      omega
    have hwritten := hz.written h hb (Nat.le_add_right dataOffset off) hin
    have hinside := h.inside_store (mem_used.1 hb).1 hin
    rw [← Nat.add_assoc, ← hptr] at hwritten hinside
    change Returns (storeBytes (ptr + off) bytes >>= fun _ => pure none) R.heap _
    rw [returns_storeBytes hinside]
    exact returns_pure.2 hwritten

/-- What holds of runs that split no block. -/
def ZeroInv (R : HeapUse) : Prop := HeapInv R ∧ FreeZeroed R.heap

theorem ZeroInv.step {R' : HeapUse} {call : HeapCall} (hinv : ZeroInv R)
    (hm : call.Enabled R → call.Meets R) (hstep : HeapUseStep R call R') : ZeroInv R' := by
  obtain ⟨⟨bs, h, ho⟩, hz⟩ := hinv
  refine ⟨HeapInv.step ⟨bs, h, ho⟩ hm hstep, ?_⟩
  obtain ⟨henabled, res, H, hrun, rfl⟩ := hstep
  exact (HeapCall.freeZeroed h hz ho henabled (hm henabled)).of_run hrun

theorem HeapUse.Start.zeroed (h : R.Start) : ZeroInv R := ⟨h.inv, .of_shape h.shape nofun⟩

/-- What `mm_malloc` is run on meets the condition. -/
theorem HeapCall.Asks.meets {call : HeapCall} (h : call.Asks R n) (hm : call.Meets R) :
    R.heap.MallocMeets n := by
  cases call with
  | malloc size =>
    rw [show n = size.toNat from h]
    exact hm
  | realloc ptr size =>
    obtain ⟨rfl, hcase⟩ := h
    by_cases hptr : ptr = 0
    · exact hm.1 hptr
    · exact hm.2 hptr (hcase.resolve_left hptr).2
  | free ptr => exact h.elim
  | write ptr off bytes => exact h.elim

/-- **Every payload is zero when `mm_malloc` returns it, in a run in which no call splits a block** or
asks for a size that wraps around. -/
theorem mmAlloc_zeroed (hstart : R.Start) (calls : List HeapCall)
    (hmeets : Throughout HeapUseStep (fun R call => call.Enabled R → call.Meets R) R calls) :
    Throughout HeapUseStep
      (fun R call => call.Enabled R → ∀ n, call.Asks R n → R.heap.GivesZero n) R calls := by
  refine hmeets.imp (I := ZeroInv) (fun hinv hm hstep => hinv.step hm hstep) ?_ hstart.zeroed
  rintro R call ⟨⟨bs, h, ho⟩, hz⟩ hm henabled n hasks
  exact (mmMalloc_zeroed h hz (hasks.meets (hm henabled))).mono fun _ _ hdone => hdone.2

/-- **A block used again** is zero when it is given out. -/
theorem mmAlloc_zeroed_reuse : Throughout HeapUseStep
    (fun R call => call.Enabled R → ∀ n, call.Asks R n → R.heap.GivesZero n) heapStart reuseCalls :=
  mmAlloc_zeroed heapStart_start _ reuseCalls_meets

set_option maxRecDepth 20000 in
/-- The block behind the one that is split has 18 bytes; they are counted at byte 66. -/
theorem run_splitCalls_byte : (splitCalls.run heapStart.heap).map (fun r => (r.1, r.2.mem 66)) =
    some ((some 44, some 44), 18) := by
  decide +kernel

/-- **The payload of a block that was split is not zero.** -/
theorem not_allocZeroed : ¬∀ (R : HeapUse), R.Start → ∀ calls : List HeapCall,
    Throughout HeapUseStep
      (fun R call => call.Enabled R → ∀ n, call.Asks R n → R.heap.GivesZero n) R calls := by
  intro h
  obtain ⟨⟨⟨p, q⟩, H₃⟩, hrun, hres⟩ := Option.map_eq_some_iff.1 run_splitCalls_byte
  obtain ⟨p', H₁, hrun₁, hrun⟩ := run_bind_cases hrun
  obtain ⟨_, H₂, hrun₂, hrun⟩ := run_bind_cases hrun
  obtain ⟨q', H₃', hrun₃, hrun⟩ := run_bind_cases hrun
  cases hrun
  obtain ⟨hpq, hbyte⟩ := Prod.mk.inj hres
  obtain ⟨rfl, rfl⟩ := Prod.mk.inj hpq
  have hsafe := h heapStart heapStart_start [.malloc 100, .free 44, .malloc 50]
  have hsafe₁ := hsafe.2 _ ⟨trivial, some 44, H₁, hrun₁, rfl⟩
  have hsafe₂ := hsafe₁.2 _ ⟨.inr ⟨100, List.mem_cons_self⟩, none, H₂, run_bind_of_run hrun₂, rfl⟩
  have hzero := (hsafe₂.1 trivial 50 rfl).of_run hrun₃ 44 rfl 22 (by decide)
  exact absurd (hbyte.symm.trans hzero) (by decide)

end HwMemory
end CS162

/-
# What becomes of the user heap's blocks

`mm_malloc` moves the break before it looks at the list, so a free block that is large enough
saves no memory (`mmMalloc_reuses_never`), and rounds of `mm_malloc` and `mm_free` use as much heap
as there are rounds (`rounds_brk`).

Where no block next to the freed one is free, `mm_free` keeps the list's blocks (`mmFree_keeps`).
-/

import Mathlib.Data.List.Chain
import CS162.HwMemory.MmAllocRuns

namespace CS162
namespace HwMemory

open CS162.Basis

variable {S H : MmHeap} {m m' : Memory} {a n : ℕ} {b c : Block} {bs bs' pre post : List Block}

/-! ### The list and its blocks -/

/-- At one address there is one block. -/
theorem Block.In.unique (hb : b.In m) (hc : c.In m) (haddr : b.addr = c.addr) : b = c := by
  have hsize : b.size = c.size := by
    rw [← hb.size, ← hc.size, haddr]
  have hfree : b.free = c.free := by
    have hflag : (if b.free then 1 else 0) = if c.free then 1 else 0 := by
      rw [← hb.free, ← hc.free, haddr]
    cases hbf : b.free with
    | false =>
      cases hcf : c.free with
      | false => rfl
      | true => simp [hbf, hcf] at hflag
    | true =>
      cases hcf : c.free with
      | false => simp [hbf, hcf] at hflag
      | true => rfl
  cases b
  cases c
  dsimp only at haddr hsize hfree
  rw [haddr, hsize, hfree]

/-- The memory has one list at a pointer. -/
theorem Chain.unique (h : Chain m a bs) (h' : Chain m a bs') (hpos : ∀ b ∈ bs, 0 < b.addr)
    (hpos' : ∀ b ∈ bs', 0 < b.addr) : bs = bs' := by
  induction bs generalizing a bs' with
  | nil =>
    cases bs' with
    | nil => rfl
    | cons c bs' => exact absurd (h.symm.trans h'.1) (Nat.ne_of_lt (hpos' c List.mem_cons_self))
  | cons b bs ih =>
    cases bs' with
    | nil => exact absurd (h'.symm.trans h.1) (Nat.ne_of_lt (hpos b List.mem_cons_self))
    | cons c bs' =>
      obtain ⟨hb, hin, hrest⟩ := h
      obtain ⟨hc, hin', hrest'⟩ := h'
      have heq := hin.unique hin' (hb.symm.trans hc)
      subst heq
      rw [ih hrest hrest' (fun d hd => hpos d (List.mem_cons_of_mem _ hd))
        fun d hd => hpos' d (List.mem_cons_of_mem _ hd)]

theorem Shape.unique (h : Shape S bs) (h' : Shape S bs') : bs = bs' :=
  h.chain.unique h'.chain (fun _ => h.addr_pos) fun _ => h'.addr_pos

/-- There are no blocks at first. -/
theorem HeapUse.Start.shape {R : HeapUse} (h : R.Start) : Shape R.heap [] :=
  ⟨h.noBlock, .nil, nofun, nofun, h.base, h.below, h.small⟩

/-- The bytes of the blocks, headers and payloads. -/
def totalOf (bs : List Block) : ℕ := (bs.map fun b => headerSize + b.size).sum

/-- No two free blocks are next to each other. -/
def Spaced (bs : List Block) : Prop := bs.IsChain fun b c => ¬(b.free = true ∧ c.free = true)

/-- The same addresses and sizes. -/
def Alike (bs bs' : List Block) : Prop :=
  bs'.map (fun b => (b.addr, b.size)) = bs.map fun b => (b.addr, b.size)

theorem Alike.refl (bs : List Block) : Alike bs bs := rfl

theorem Alike.trans {bs'' : List Block} (h : Alike bs bs') (h' : Alike bs' bs'') : Alike bs bs'' :=
  Eq.trans h' h

theorem Alike.flag (free : Bool) : Alike (pre ++ b :: post) (pre ++ { b with free := free } :: post) := by
  unfold Alike
  rw [List.map_append, List.map_cons, List.map_append, List.map_cons]

theorem Alike.total (h : Alike bs bs') : totalOf bs' = totalOf bs := by
  have hsum := congrArg (fun l => (l.map fun x : ℕ × ℕ => headerSize + x.2).sum) h
  rw [List.map_map, List.map_map] at hsum
  exact hsum

/-- A block in use separates. -/
theorem Spaced.flag_used (h : Spaced (pre ++ { b with free := true } :: post)) (hb : b.free = false) :
    Spaced (pre ++ b :: post) := by
  unfold Spaced at h ⊢
  rw [List.isChain_append, List.isChain_cons] at h ⊢
  obtain ⟨hpre, ⟨-, hpost⟩, -⟩ := h
  refine ⟨hpre, ⟨fun c _ hbc => ?_, hpost⟩, fun c _ d hd hcd => ?_⟩
  · exact Bool.false_ne_true (hb.symm.trans hbc.1)
  · rw [List.head?_cons, Option.mem_some_iff] at hd
    exact Bool.false_ne_true (hb.symm.trans (hd ▸ hcd.2))

theorem Spaced.append_used (h : Spaced bs) (hb : b.free = false) : Spaced (bs ++ [b]) := by
  unfold Spaced at h ⊢
  refine List.isChain_append.2 ⟨h, .singleton b, fun c _ d hd hcd => ?_⟩
  rw [List.head?_cons, Option.mem_some_iff] at hd
  exact Bool.false_ne_true (hb.symm.trans (hd ▸ hcd.2))

/-- The blocks next to the pointer's are in use. -/
def MmHeap.Alone (S : MmHeap) (ptr : ℕ) : Prop :=
  ∀ pre b post, Shape S (pre ++ b :: post) → ptr = b.addr + dataOffset →
    (∀ c ∈ pre.getLast?, c.free = false) ∧ ∀ c ∈ post.head?, c.free = false

/-- A block between blocks in use is freed. -/
theorem Spaced.flag_free (h : Spaced (pre ++ b :: post)) (hpre : ∀ c ∈ pre.getLast?, c.free = false)
    (hpost : ∀ c ∈ post.head?, c.free = false) :
    Spaced (pre ++ { b with free := true } :: post) := by
  unfold Spaced at h ⊢
  rw [List.isChain_append, List.isChain_cons] at h ⊢
  refine ⟨h.1, ⟨fun c hc hbc => ?_, h.2.1.2⟩, fun c hc d _ hcd => ?_⟩
  · exact Bool.false_ne_true ((hpost c hc).symm.trans hbc.2)
  · exact Bool.false_ne_true ((hpre c hc).symm.trans hcd.1)

/-- Among blocks that are all free there is one. -/
theorem Spaced.length_le (h : Spaced bs) (hfree : ∀ b ∈ bs, b.free = true) : bs.length ≤ 1 := by
  cases bs with
  | nil => exact Nat.zero_le 1
  | cons b bs =>
    cases bs with
    | nil => exact Nat.le_refl 1
    | cons c bs =>
      have hbc := (List.isChain_cons_cons.1 h).1
      exact absurd ⟨hfree b (by simp), hfree c (by simp)⟩ hbc

/-! ### What the calls leave of the heap's room -/

/-- The break, its limit and what `sbrk` is to answer are the same. -/
def SameRoom (S S' : MmHeap) : Prop := S'.brk = S.brk ∧ S'.limit = S.limit ∧ S'.grants = S.grants

theorem SameRoom.refl (S : MmHeap) : SameRoom S S := ⟨rfl, rfl, rfl⟩

theorem SameRoom.trans {S₁ S₂ S₃ : MmHeap} (h : SameRoom S₁ S₂) (h' : SameRoom S₂ S₃) :
    SameRoom S₁ S₃ :=
  ⟨h'.1.trans h.1, h'.2.1.trans h.2.1, h'.2.2.trans h.2.2⟩

theorem sameRoom_load {k : ℕ} : Preserves SameRoom (load a k) := by
  intro S
  unfold load
  rw [ensures_get_bind]
  split_ifs
  · exact ensures_pure (.refl S)
  · exact ensures_halt

theorem sameRoom_storeBytes {bytes : List UInt8} : Preserves SameRoom (storeBytes a bytes) := by
  intro S
  unfold storeBytes
  rw [ensures_get_bind]
  split_ifs
  · intro _ _ hrun
    cases hrun
    exact ⟨rfl, rfl, rfl⟩
  · exact ensures_halt

theorem sameRoom_seq {α β : Type} {x : OnMmHeap α} {f : α → OnMmHeap β} (h : Preserves SameRoom x)
    (hf : ∀ a, Preserves SameRoom (f a)) : Preserves SameRoom (x >>= f) :=
  Preserves.bind SameRoom.trans h hf

theorem sameRoom_fitsAt {size current : ℕ} : Preserves SameRoom (fitsAt size current) := by
  unfold fitsAt
  refine sameRoom_seq sameRoom_load fun free => ?_
  split_ifs
  · exact preserves_pure .refl
  · exact sameRoom_seq sameRoom_load fun _ => preserves_pure .refl

/-- The search moves neither the break nor its limit. -/
theorem sameRoom_mallocLoop {size new turns current prev : ℕ} :
    Preserves SameRoom (mallocLoop size new turns current prev) := by
  induction turns generalizing current prev with
  | zero => exact preserves_halt
  | succ turns ih =>
    unfold mallocLoop
    split_ifs
    · exact sameRoom_seq sameRoom_storeBytes fun _ => sameRoom_seq sameRoom_storeBytes fun _ =>
        sameRoom_seq sameRoom_storeBytes fun _ => preserves_pure .refl
    · refine sameRoom_seq sameRoom_fitsAt fun fits => ?_
      split_ifs
      · refine sameRoom_seq sameRoom_load fun currentSize => ?_
        split_ifs
        · exact sameRoom_seq sameRoom_storeBytes fun _ => preserves_pure .refl
        · exact sameRoom_seq sameRoom_storeBytes fun _ => sameRoom_seq sameRoom_storeBytes fun _ =>
            sameRoom_seq sameRoom_load fun _ => sameRoom_seq sameRoom_storeBytes fun _ =>
            sameRoom_seq sameRoom_storeBytes fun _ => sameRoom_seq sameRoom_storeBytes fun _ =>
            sameRoom_seq sameRoom_storeBytes fun _ => preserves_pure .refl
      · exact sameRoom_seq sameRoom_load fun _ => ih

/-- The heap once `sbrk` has given a block its memory. -/
def MmHeap.grown (S : MmHeap) (size : ℕ) : MmHeap :=
  { S with grants := fun k => S.grants (k + 1), brk := S.brk + plusHeader size }

/-- **Every block's memory is new**, also that of a block which is found on the list. -/
theorem mmMalloc_room {size : ℕ} (hsize : size ≠ 0)
    (hgrant : S.grants 0 = true ∧ S.brk + plusHeader size ≤ S.limit) :
    Ensures (mmMalloc size) S fun _ S' => SameRoom (S.grown size) S' ∧ 28 ≤ plusHeader size := by
  unfold mmMalloc
  rw [if_neg hsize, ensures_bind_of_run (run_sbrk hgrant)]
  change Ensures _ (S.grown size) _
  intro res S' hrun
  obtain ⟨_, S₁, h₁, hrun⟩ := run_bind_cases hrun
  obtain ⟨_, S₂, h₂, hrun⟩ := run_bind_cases hrun
  obtain ⟨_, S₃, h₃, hrun⟩ := run_bind_cases hrun
  have hroom₁ := sameRoom_storeBytes _ _ _ h₁
  have hroom₂ := hroom₁.trans (sameRoom_storeBytes _ _ _ h₂)
  have hroom₃ := hroom₂.trans (sameRoom_storeBytes _ _ _ h₃)
  -- `free` is within the new memory
  have hinside : S₂.Inside (S.brk + 24) (bytesOf 4 1).length := by
    by_contra hout
    unfold setFree storeBytes at h₃
    rw [run_bind_of_run (a := S₂) (t := S₂) rfl, if_neg hout] at h₃
    cases h₃
  have hle : S.brk + 24 + 4 ≤ S.brk + plusHeader size := by
    have hhi := hinside.2
    rwa [length_bytesOf, hroom₂.1] at hhi
  refine ⟨hroom₃.trans ?_, by omega⟩
  obtain ⟨_, _, hget, hrun⟩ := run_bind_cases hrun
  cases hget
  split_ifs at hrun
  · obtain ⟨_, _, hset, hrun⟩ := run_bind_cases hrun
    cases hset
    obtain ⟨_, _, hfree, hrun⟩ := run_bind_cases hrun
    cases hrun
    have hroom := sameRoom_storeBytes _ _ _ hfree
    exact hroom
  · obtain ⟨_, _, hturns, hrun⟩ := run_bind_cases hrun
    cases hturns
    exact sameRoom_mallocLoop _ _ _ hrun

/-! ### The loops of `mm_free` -/

/-- The second loop on blocks of which no two that are free are next to each other. -/
theorem mergeLoop_stays {turns : ℕ} (h : Shape S (pre ++ post)) (hspaced : Spaced post)
    (hturns : post.length < turns) :
    Returns (mergeLoop turns (headOf post)) S fun _ S' => S' = S := by
  induction turns generalizing pre post with
  | zero => cases hturns
  | succ turns ih =>
    unfold mergeLoop
    cases post with
    | nil => exact returns_pure.2 rfl
    | cons b post =>
      have hb : b ∈ pre ++ b :: post := by simp
      have hnext : Returns (getNext b.addr >>= mergeLoop turns) S fun _ S' => S' = S := by
        rw [returns_getNext h]
        have hassoc : pre ++ b :: post = (pre ++ [b]) ++ post := by simp
        exact ih (hassoc ▸ h) (List.isChain_cons.1 hspaced).2 (Nat.lt_of_succ_lt_succ hturns)
      rw [show headOf (b :: post) = b.addr from rfl, if_neg (Nat.ne_of_gt (h.addr_pos hb))]
      cases hfree : b.free with
      | false =>
        rw [returns_getFree_used h hb hfree, returns_getNext h, if_neg (fun h => h.1 rfl)]
        exact hnext
      | true =>
        rw [returns_getFree h hb hfree, returns_getNext h]
        cases post with
        | nil =>
          rw [if_neg (fun h => h.2 rfl)]
          exact hnext
        | cons c post =>
          have hc : c ∈ pre ++ b :: c :: post := by simp
          have hused : c.free = false := by
            cases hcfree : c.free with
            | false => rfl
            | true => exact absurd ⟨hfree, hcfree⟩ (List.isChain_cons_cons.1 hspaced).1
          rw [if_pos ⟨Nat.one_ne_zero, Nat.ne_of_gt (h.addr_pos hc)⟩,
            show headOf (c :: post) = c.addr from rfl, returns_getFree_used h hc hused,
            if_neg (fun h => h rfl)]
          exact hnext

/-- The first loop where the next block is in use. -/
theorem absorbLoop_stays {turns : ℕ} (h : Shape S (pre ++ b :: post))
    (hnext : ∀ c ∈ post.head?, c.free = false) :
    Returns (absorbLoop b.addr (turns + 1)) S fun _ S' => S' = S := by
  unfold absorbLoop
  rw [returns_getNext h]
  cases post with
  | nil => exact returns_pure.2 rfl
  | cons c post =>
    have hc : c ∈ pre ++ b :: c :: post := by simp
    rw [show headOf (c :: post) = c.addr from rfl, if_neg (Nat.ne_of_gt (h.addr_pos hc)),
      returns_getFree_used h hc (hnext c rfl), if_pos rfl]
    exact returns_pure.2 rfl

theorem Block.Zeroed.congr (h : b.Zeroed m) (hsame : b.SameData m m') : b.Zeroed m' :=
  fun p hlo hhi => (hsame p hlo hhi).trans (h p hlo hhi)

/-- **The third loop** clears every free block, by induction on the turns. -/
theorem clearLoop_clears {turns : ℕ} (h : Shape S (pre ++ post))
    (hpre : ∀ d ∈ pre, d.free = true → d.Zeroed S.mem) (hturns : post.length < turns) :
    Returns (clearLoop turns (headOf post)) S fun _ S' => SameRoom S S' ∧ Shape S' (pre ++ post) ∧
      ∀ d ∈ pre ++ post, d.free = true → d.Zeroed S'.mem := by
  induction turns generalizing S pre post with
  | zero => cases hturns
  | succ turns ih =>
    unfold clearLoop
    cases post with
    | nil =>
      rw [List.append_nil] at h ⊢
      exact returns_pure.2 ⟨.refl S, h, hpre⟩
    | cons b post =>
      have hb : b ∈ pre ++ b :: post := by simp
      have hassoc : pre ++ b :: post = (pre ++ [b]) ++ post := by simp
      rw [show headOf (b :: post) = b.addr from rfl, if_neg (Nat.ne_of_gt (h.addr_pos hb))]
      cases hfree : b.free with
      | false =>
        rw [returns_getFree_used h hb hfree, if_neg (fun h => h rfl)]
        change Returns (getNext b.addr >>= clearLoop turns) S _
        rw [returns_getNext h, hassoc]
        refine ih (hassoc ▸ h) (fun d hd hdfree => ?_) (Nat.lt_of_succ_lt_succ hturns)
        rcases List.mem_append.1 hd with hd | hd
        · exact hpre d hd hdfree
        · rw [List.mem_singleton.1 hd, hfree] at hdfree
          exact absurd hdfree Bool.false_ne_true
      | true =>
        have hlen : dataOffset + (List.replicate b.size (0 : UInt8)).length ≤ 28 + b.size := by
          rw [List.length_replicate]
          exact Nat.le_refl _
        have hwritten := h.written (Nat.le_refl dataOffset) hlen
        rw [returns_getFree h hb hfree, if_pos Nat.one_ne_zero, returns_getSize h hb]
        unfold memset
        rw [returns_storeBytes (h.inside_store hb hlen)]
        change Returns (getNext b.addr >>= clearLoop turns) _ _
        rw [returns_getNext hwritten, hassoc]
        refine (ih (hassoc ▸ hwritten) (fun d hd hdfree => ?_) (Nat.lt_of_succ_lt_succ hturns)).mono
          fun _ S' hdone => ⟨SameRoom.trans ⟨rfl, rfl, rfl⟩ hdone.1, hdone.2⟩
        rcases List.mem_append.1 hd with hd | hd
        · exact (hpre d hd hdfree).congr (h.same_store (List.mem_append_left post hd) hlen).data
        · rw [List.mem_singleton.1 hd]
          intro p hlo hhi
          exact store_zero hlo (by unfold Block.fin at hhi; omega)

/-- **`mm_free` of a block between blocks in use** keeps the blocks. -/
theorem mmFree_keeps (h : Shape S (pre ++ b :: post)) (hspaced : Spaced (pre ++ b :: post))
    (hpre : ∀ c ∈ pre.getLast?, c.free = false) (hpost : ∀ c ∈ post.head?, c.free = false) :
    Returns (mmFree (b.addr + dataOffset)) S fun _ S' => SameRoom S S' ∧
      Shape S' (pre ++ { b with free := true } :: post) := by
  have hspaced' := hspaced.flag_free hpre hpost
  refine mmFree_of_loops h fun m' htidied => ?_
  have hlength := Nat.lt_succ_of_le htidied.shape.length_le
  have hshape : Shape { S.freed b with mem := m' } ([] ++ (pre ++ ⟨b.addr, b.size, true⟩ :: post)) :=
    htidied.shape
  have hmerge := mergeLoop_stays hshape hspaced' hlength
  have hclear := clearLoop_clears hshape nofun hlength
  rw [← htidied.shape.chain.head] at hmerge hclear
  refine (absorbLoop_stays htidied.shape hpost).seq ?_
  rintro _ _ rfl
  rw [returns_get_bind]
  refine hmerge.seq ?_
  rintro _ _ rfl
  refine hclear.mono ?_
  rintro _ S' ⟨hroom, hshape, -⟩
  exact ⟨SameRoom.trans ⟨rfl, rfl, rfl⟩ hroom, hshape⟩

/-! ### Growth -/

/-- The list runs through the address. -/
inductive OnList (S : MmHeap) : ℕ → Prop
  | head (h : S.listHead ≠ 0) : OnList S S.listHead
  | next {b : ℕ} (hb : OnList S b) (h : numberAt S.mem (b + 8) 8 ≠ 0) :
      OnList S (numberAt S.mem (b + 8) 8)

/-- A free block of the list. -/
def MmHeap.FreeAt (S : MmHeap) (b : ℕ) : Prop := OnList S b ∧ numberAt S.mem (b + 24) 4 ≠ 0

/-- Some free block of the list is large enough. -/
def MmHeap.HasRoom (S : MmHeap) (size : ℕ) : Prop :=
  ∃ b, S.FreeAt b ∧ size ≤ numberAt S.mem b 8

/-- **`mm_malloc` returns the memory of a free block and leaves the break.** -/
def MmHeap.Reuses (S : MmHeap) (size : ℕ) : Prop :=
  Returns (mmMalloc size) S fun res S' =>
    S'.brk = S.brk ∧ ∃ b, S.FreeAt b ∧ res = some (b + dataOffset)

theorem not_reuses {size : ℕ} (hsize : size ≠ 0) : ¬S.Reuses size := by
  rintro ⟨res, S', hrun, hbrk, b, -, rfl⟩
  by_cases hgrant : S.grants 0 = true ∧ S.brk + plusHeader size ≤ S.limit
  · obtain ⟨hroom, hle⟩ := mmMalloc_room hsize hgrant _ _ hrun
    have hgrown : S'.brk = S.brk + plusHeader size := hroom.1
    omega
  · unfold mmMalloc at hrun
    rw [if_neg hsize, run_bind_of_run (run_sbrk_none hgrant)] at hrun
    cases hrun

/-- Rounds of `mm_malloc` and `mm_free`. -/
def rounds (size : ℕ) : ℕ → OnMmHeap Unit
  | 0 => return ()
  | k + 1 => do
    let p ← mmMalloc size
    mmFree (p.getD 0)
    rounds size k

/-- What rounds of one size find. -/
structure Round (S : MmHeap) (size k : ℕ) : Prop where
  shape : Shape S [] ∨ ∃ a, Shape S [⟨a, size, true⟩]
  grants : ∀ i < k, S.grants i = true
  room : S.brk + k * (size + headerSize) ≤ S.limit

theorem Round.splitsNone {size k : ℕ} (h : Round S size k) : S.SplitsNone size := by
  intro bs hbs b hfind
  rcases h.shape with hshape | ⟨a, hshape⟩
  · rw [hbs.unique hshape] at hfind
    cases hfind
  · rw [hbs.unique hshape] at hfind
    rw [List.mem_singleton.1 (List.mem_of_find?_eq_some hfind)]
    exact Nat.le_add_right _ _

theorem Spaced.singleton (b : Block) : Spaced [b] := List.isChain_singleton b

/-- The only block is freed. -/
theorem mmFree_only (h : Shape S [b]) : Returns (mmFree (b.addr + dataOffset)) S fun _ S' =>
    SameRoom S S' ∧ Shape S' [{ b with free := true }] := by
  have hshape : Shape S ([] ++ b :: []) := h
  exact mmFree_keeps hshape (.singleton b) nofun nofun

/-- **A round moves the break.** -/
theorem Round.step {size k : ℕ} (h : Round S size (k + 1)) (hsize : size ≠ 0) :
    Returns (do let p ← mmMalloc size; mmFree (p.getD 0)) S fun _ S' =>
      Round S' size k ∧ S'.brk = S.brk + (size + headerSize) := by
  obtain ⟨bs, hbs, hblocks⟩ : ∃ bs, Shape S bs ∧ (bs = [] ∨ ∃ a, bs = [⟨a, size, true⟩]) := by
    rcases h.shape with hshape | ⟨a, hshape⟩
    · exact ⟨[], hshape, .inl rfl⟩
    · exact ⟨_, hshape, .inr ⟨a, rfl⟩⟩
  have hroom := h.room
  rw [Nat.succ_mul] at hroom
  have hsmall := hbs.small
  have hlt : size + headerSize < 2 ^ 64 := by omega
  have hgrant : S.grants 0 = true ∧ S.brk + plusHeader size ≤ S.limit := by
    rw [plusHeader_of_lt hlt]
    exact ⟨h.grants 0 k.succ_pos, by omega⟩
  have hplaces := mmMalloc_places hbs (fun _ _ _ => ⟨hlt, h.splitsNone⟩)
  obtain ⟨res, S₁, hrun, hdone⟩ := hplaces
  obtain ⟨hgrown, -⟩ := mmMalloc_room hsize hgrant _ _ hrun
  have hbrk : S₁.brk = S.brk + (size + headerSize) := by
    rw [hgrown.1, ← plusHeader_of_lt hlt]
    rfl
  rw [returns_bind_of_run hrun]
  rcases hdone with ⟨rfl, hshape, -⟩ | ⟨bs', b, rfl, hb⟩
  · refine returns_pure.2 ⟨⟨?_, fun i hi => ?_, ?_⟩, hbrk⟩
    · rcases hblocks with rfl | ⟨a, rfl⟩
      · exact .inl hshape
      · exact .inr ⟨a, hshape⟩
    · rw [hgrown.2.2]
      exact h.grants (i + 1) (Nat.succ_lt_succ hi)
    · rw [hbrk, hgrown.2.1]
      change _ ≤ S.limit
      omega
  · have honly : bs' = [b] ∧ b.size = size := by
      rcases hb.place with ⟨pre, post, hsplit, hbs'⟩ | ⟨hbs', hbsize, -, hnone⟩
      · rcases hblocks with rfl | ⟨a, rfl⟩
        · simp at hsplit
        · cases pre with
          | nil =>
            obtain ⟨hhead, rfl⟩ := List.cons_eq_cons.1 hsplit
            exact ⟨hbs', (congrArg Block.size hhead).symm⟩
          | cons c pre => simp at hsplit
      · rcases hblocks with rfl | ⟨a, rfl⟩
        · exact ⟨hbs', hbsize⟩
        · have hfits := hnone _ List.mem_cons_self
          unfold Block.fits at hfits
          simp at hfits
    obtain ⟨rfl, rfl⟩ := honly
    refine (mmFree_only hb.shape).mono ?_
    rintro _ S₂ ⟨hsame, hshape⟩
    refine ⟨⟨.inr ⟨b.addr, hshape⟩, fun i hi => ?_, ?_⟩, hsame.1.trans hbrk⟩
    · rw [hsame.2.2, hgrown.2.2]
      exact h.grants (i + 1) (Nat.succ_lt_succ hi)
    · rw [hsame.1, hbrk, hsame.2.1, hgrown.2.1]
      change _ ≤ S.limit
      omega

/-- **Rounds of one size use as much heap as there are rounds**, by induction on them. -/
theorem rounds_brk {size k : ℕ} (h : Round S size k) (hsize : size ≠ 0) :
    Returns (rounds size k) S fun _ S' => S'.brk = S.brk + k * (size + headerSize) := by
  induction k generalizing S with
  | zero => exact returns_pure.2 (by omega)
  | succ k ih =>
    obtain ⟨_, S₁, hrun, hround, hbrk⟩ := h.step hsize
    obtain ⟨p, S', hmalloc, hfree⟩ := run_bind_cases hrun
    unfold rounds
    rw [returns_bind_of_run hmalloc, returns_bind_of_run hfree]
    refine (ih hround).mono fun _ S₂ hdone => ?_
    rw [hdone, hbrk, Nat.succ_mul]
    omega

/-- **A free block is never enough**: whatever the heap, `mm_malloc` moves the break or returns no
block's memory; and rounds of one size use more heap each. -/
theorem mmMalloc_reuses_never {size : ℕ} (hsize : size ≠ 0) :
    (∀ S : MmHeap, S.HasRoom size → ¬S.Reuses size) ∧
      ∀ (R : HeapUse) (k : ℕ), R.Start → (∀ i < k, R.heap.grants i = true) →
        R.heap.brk + k * (size + headerSize) ≤ R.heap.limit →
        Returns (rounds size k) R.heap fun _ S' =>
          S'.brk = R.heap.brk + k * (size + headerSize) := by
  refine ⟨fun S _ => not_reuses hsize, fun R k hstart hgrants hroom => ?_⟩
  exact rounds_brk ⟨.inl hstart.shape, hgrants, hroom⟩ hsize

/-- The second round of 100 bytes grows the heap as the first did. -/
theorem mmMalloc_reuses_never_twice : Returns (rounds 100 2) heapStart.heap fun _ S' =>
    S'.brk = heapStart.heap.brk + 2 * (100 + headerSize) :=
  (mmMalloc_reuses_never (by decide)).2 heapStart 2 heapStart_start (fun _ _ => rfl) (by decide)

/-- A block of 100 bytes is freed. -/
def freedBlock : OnMmHeap (Option ℕ) := do
  let p ← mmMalloc 100
  mmFree 44
  return p

set_option maxRecDepth 20000 in
/-- It is on the list. -/
theorem run_freedBlock : (freedBlock.run heapStart.heap).map (fun r =>
    (r.1, r.2.listHead, numberAt r.2.mem 40 4, numberAt r.2.mem 16 8)) =
      some (some 44, 16, 1, 100) := by
  decide +kernel

/-- **Reuse before growth fails in a run.** -/
theorem not_reuseBeforeGrowth : ¬∀ (R R' : HeapUse), R.Start →
    Leads HeapUseStep (fun _ _ => True) R R' → ∀ size : UInt64, size ≠ 0 →
      R'.heap.HasRoom size.toNat → R'.heap.Reuses size.toNat := by
  intro h
  obtain ⟨⟨p, H₂⟩, hrun, hres⟩ := Option.map_eq_some_iff.1 run_freedBlock
  obtain ⟨p', H₁, hrun₁, hrun⟩ := run_bind_cases hrun
  obtain ⟨_, H₂', hrun₂, hrun⟩ := run_bind_cases hrun
  cases hrun
  simp only [Prod.mk.injEq] at hres
  obtain ⟨rfl, hhead, hfree, hsize⟩ := hres
  have hmalloc : HeapUseStep heapStart (.malloc 100) ⟨H₁, [(44, 100)]⟩ :=
    ⟨trivial, some 44, H₁, hrun₁, rfl⟩
  have hstep : HeapUseStep ⟨H₁, [(44, 100)]⟩ (.free 44) ⟨H₂, []⟩ :=
    ⟨.inr ⟨100, List.mem_cons_self⟩, none, H₂, run_bind_of_run hrun₂, rfl⟩
  have hleads : Leads HeapUseStep (fun _ _ => True) heapStart ⟨H₂, []⟩ :=
    Leads.next (Leads.next .refl trivial hmalloc) trivial hstep
  refine not_reuses (by decide) (h heapStart ⟨H₂, []⟩ heapStart_start hleads 100 (by decide) ?_)
  refine ⟨16, ⟨?_, ?_⟩, ?_⟩
  · have honList : OnList H₂ H₂.listHead := .head (by rw [hhead]; decide)
    rwa [hhead] at honList
  · rw [hfree]
    decide
  · rw [hsize]
    decide

end HwMemory
end CS162

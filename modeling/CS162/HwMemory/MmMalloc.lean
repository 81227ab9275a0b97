/-
# Allocating a block

`mm_malloc` on a list of blocks: no memory, the first free block that is large enough
(`Shape.taken`), or a new block behind the others (`Shape.appended`).  Where the block that
is found would be split, the new header lies in the payload that is returned;
`mmMalloc_returns` is about the calls that split none.
-/

import CS162.HwMemory.MmBlocks

namespace CS162
namespace HwMemory

open CS162.Basis

/-- The block is free and large enough. -/
def Block.fits (size : ℕ) (b : Block) : Bool := b.free && decide (size ≤ b.size)

/-- The memory agrees on a block's payload. -/
def Block.SameData (b : Block) (m m' : Memory) : Prop :=
  ∀ p, b.addr + dataOffset ≤ p → p < b.fin → m' p = m p

/-- **A block is allocated**: it is one more in use, and the payloads of the others are as
they were. -/
structure Allocated (S : MmHeap) (bs : List Block) (size : ℕ) (S' : MmHeap) (bs' : List Block)
    (b : Block) : Prop where
  shape : Shape S' bs'
  size : size ≤ b.size
  inUse : (used bs').Perm (b :: used bs)
  same : ∀ d ∈ used bs, d.SameData S.mem S'.mem

/-- `mm_malloc` returns a block's payload. -/
def Gave (S : MmHeap) (bs : List Block) (size : ℕ) (res : Option ℕ) (S' : MmHeap) : Prop :=
  ∃ bs' b, res = some (b.addr + dataOffset) ∧ Allocated S bs size S' bs' b

/-- What `mm_malloc` does when it splits no block. -/
def MallocDone (S : MmHeap) (bs : List Block) (size : ℕ) (res : Option ℕ) (S' : MmHeap) : Prop :=
  (res = none ∧ Shape S' bs ∧ S'.mem = S.mem) ∨ Gave S bs size res S'

/-- The payload is all zero bytes. -/
def Block.Zeroed (b : Block) (m : Memory) : Prop :=
  ∀ p, b.addr + dataOffset ≤ p → p < b.fin → m p = 0

/-- **Where the block is**: one that was free, or, where none is large enough, a new one of zero bytes
behind the others. -/
structure Placed (S : MmHeap) (bs : List Block) (n : ℕ) (S' : MmHeap) (bs' : List Block)
    (b : Block) : Prop extends Allocated S bs n S' bs' b where
  place : (∃ pre post, bs = pre ++ { b with free := true } :: post ∧ bs' = pre ++ b :: post) ∨
    bs' = bs ++ [b] ∧ b.size = n ∧ b.Zeroed S'.mem ∧ ∀ d ∈ bs, d.fits n = false
  unused : b.free = false
  kept : ∀ d ∈ bs, d.SameData S.mem S'.mem

/-- `mm_malloc` returns the payload of such a block. -/
def Gives (S : MmHeap) (bs : List Block) (size : ℕ) (res : Option ℕ) (S' : MmHeap) : Prop :=
  ∃ bs' b, res = some (b.addr + dataOffset) ∧ Placed S bs size S' bs' b

/-- The new block, not on the list yet. -/
structure Fresh (S : MmHeap) (bs : List Block) (size new : ℕ) : Prop where
  base : S.base ≤ new
  behind : ∀ b ∈ bs, b.fin ≤ new
  room : new + headerSize + size ≤ S.brk
  sizeField : numberAt S.mem new 8 = size

variable {S : MmHeap} {m m' : Memory} {b : Block} {bs pre post : List Block} {size new : ℕ}

theorem Block.Same.data (h : b.Same m m') : b.SameData m m' :=
  fun p hlo hhi => h p (by omega) hhi

/-- A free block is taken. -/
theorem Shape.taken (h : Shape S (pre ++ b :: post)) (hfree : b.free = true) (hsize : size ≤ b.size) :
    Returns (do setFree b.addr 0; return some (b.addr + dataOffset)) S
      (Gives S (pre ++ b :: post) size) := by
  have hb : b ∈ pre ++ b :: post := by simp
  have hlen : 24 + (bytesOf 4 0).length ≤ 28 + b.size := by
    rw [length_bytesOf]
    omega
  have hkept : ∀ d ∈ pre ++ b :: post,
      d.SameData S.mem (store S.mem (b.addr + 24) (bytesOf 4 0)) := by
    intro d hd
    rcases List.mem_append.1 hd with hd | hd
    · exact (h.same_store (List.mem_append_left post hd) hlen).data
    · rcases List.mem_cons.1 hd with rfl | hd
      · intro p hlo _
        exact store_of_ge (by rw [length_bytesOf]; unfold dataOffset at hlo; omega)
      · exact (h.same_store (List.mem_append_right pre hd) hlen).data
  unfold setFree
  rw [returns_storeBytes (h.inside_store hb hlen), returns_pure]
  refine ⟨_, { b with free := false }, rfl, ⟨h.flagged false, hsize, ?_, fun d hd => ?_⟩,
    .inl ⟨pre, post, ?_, rfl⟩, rfl, hkept⟩
  · rw [used_append, used_append, used_cons_free hfree]
    exact List.perm_middle
  · exact hkept d (mem_used.1 hd).1
  · rw [← hfree]

/-- A number that none of the three stores touches. -/
theorem numberAt_store₃ {a n k₁ k₂ k₃ : ℕ} {b₁ b₂ b₃ : List UInt8}
    (h₁ : a + n ≤ k₁ ∨ k₁ + b₁.length ≤ a) (h₂ : a + n ≤ k₂ ∨ k₂ + b₂.length ≤ a)
    (h₃ : a + n ≤ k₃ ∨ k₃ + b₃.length ≤ a) :
    numberAt (store (store (store m k₁ b₁) k₂ b₂) k₃ b₃) a n = numberAt m a n := by
  rw [numberAt_store_of_apart h₃, numberAt_store_of_apart h₂, numberAt_store_of_apart h₁]

/-- A block is put behind the last one. -/
theorem Shape.appended {last : Block} (h : Shape S (pre ++ [last]))
    (hnew : Fresh S (pre ++ [last]) size new) (hzero : Block.Zeroed ⟨new, size, false⟩ S.mem)
    (hnone : ∀ d ∈ pre ++ [last], d.fits size = false) :
    Returns (do setNext last.addr new; setNext new 0; setFree new 0; return some (new + dataOffset))
      S (Gives S (pre ++ [last]) size) := by
  have hlast : last ∈ pre ++ [last] := by simp
  have hbehind := hnew.behind last hlast
  have hhead := last.addr_lt_fin
  have hroom := hnew.room
  have hbase := hnew.base
  have hbelow := h.below
  have hsmall := h.small
  have hin := h.chain.fields hlast
  unfold headerSize at hroom
  have hlen8 : ∀ x, (bytesOf 8 x).length = 8 := length_bytesOf 8
  have hlen4 : ∀ x, (bytesOf 4 x).length = 4 := length_bytesOf 4
  set m' := store (store (store S.mem (last.addr + 8) (bytesOf 8 new)) (new + 8) (bytesOf 8 0))
    (new + 24) (bytesOf 4 0) with hm'
  have hbefore : ∀ d ∈ pre, d.Same S.mem m' := by
    intro d hd p hlo hhi
    have hdl := h.before hd
    rw [hm', store_of_lt (by omega), store_of_lt (by omega), store_of_lt (by omega)]
  have hdata : ∀ d ∈ pre ++ [last], d.SameData S.mem m' := by
    intro d hd
    rcases List.mem_append.1 hd with hd | hd
    · exact (hbefore d hd).data
    · rw [List.mem_singleton.1 hd]
      intro p hlo hhi
      unfold dataOffset at hlo
      rw [hm', store_of_lt (by omega), store_of_lt (by omega), store_of_ge (by rw [hlen8]; omega)]
  have hzero' : Block.Zeroed ⟨new, size, false⟩ m' := by
    intro p hlo hhi
    rw [← hzero p hlo hhi]
    unfold dataOffset at hlo
    dsimp only at hlo
    rw [hm', store_of_ge (by rw [hlen4]; omega), store_of_ge (by rw [hlen8]; omega),
      store_of_ge (by rw [hlen8]; omega)]
  have hsizeField : numberAt m' new 8 = size := by
    rw [hm', numberAt_store₃ (.inr (by rw [hlen8]; omega)) (.inl (by omega)) (.inl (by omega))]
    exact hnew.sizeField
  have hfreeField : numberAt m' (new + 24) 4 = 0 := numberAt_store_self (by omega)
  have hnextField : numberAt m' (new + 8) 8 = 0 := by
    rw [hm', numberAt_store_of_apart (.inl (by omega))]
    exact numberAt_store_self (by omega)
  unfold setNext setFree
  rw [returns_storeBytes (h.inside_store hlast (by rw [hlen8]; omega)),
    returns_storeBytes ⟨by dsimp only; omega, by rw [hlen8]; dsimp only; omega⟩,
    returns_storeBytes ⟨by dsimp only; omega, by rw [hlen4]; dsimp only; omega⟩, returns_pure]
  change Gives S (pre ++ [last]) size (some (new + dataOffset)) { S with mem := m' }
  refine ⟨pre ++ [last] ++ [⟨new, size, false⟩], ⟨new, size, false⟩, rfl,
    ⟨⟨?_, ?_, ?_, ?_, h.start, h.below, h.small⟩, Nat.le_refl _, ?_, fun d hd => ?_⟩,
    .inr ⟨rfl, rfl, hzero', hnone⟩, rfl, hdata⟩
  · rw [List.append_assoc]
    refine h.chain.replace hbefore ⟨rfl, ⟨?_, ?_⟩, ?_⟩
    · rw [hm', numberAt_store₃ (.inl (by omega)) (.inl (by omega)) (.inl (by omega))]
      exact hin.size
    · rw [hm', numberAt_store₃ (.inr (by rw [hlen8]; omega)) (.inl (by omega)) (.inl (by omega))]
      exact hin.free
    · have hnext : numberAt m' (last.addr + 8) 8 = new := by
        rw [hm', numberAt_store_of_apart (.inl (by omega)), numberAt_store_of_apart (.inl (by omega))]
        exact numberAt_store_self (by omega)
      rw [hnext]
      exact ⟨rfl, ⟨hsizeField, hfreeField⟩, hnextField⟩
  · refine List.pairwise_append.2 ⟨h.apart, List.pairwise_singleton _ _, fun d hd e he => ?_⟩
    rw [List.mem_singleton.1 he]
    exact hnew.behind d hd
  · intro d hd
    rcases List.mem_append.1 hd with hd | hd
    · exact h.lo d hd
    · rw [List.mem_singleton.1 hd]
      exact hbase
  · intro d hd
    rcases List.mem_append.1 hd with hd | hd
    · exact h.hi d hd
    · rw [List.mem_singleton.1 hd]
      unfold Block.fin dataOffset
      dsimp only
      omega
  · rw [used_append]
    exact List.perm_append_comm
  · exact hdata d (mem_used.1 hd).1

theorem fitsAt_returns (h : Shape S bs) (hb : b ∈ bs) :
    Returns (fitsAt size b.addr) S fun fits S' => fits = b.fits size ∧ S' = S := by
  unfold fitsAt Block.fits
  cases hfree : b.free with
  | false =>
    rw [returns_getFree_used h hb hfree, if_pos rfl, returns_pure]
    exact ⟨rfl, rfl⟩
  | true =>
    rw [returns_getFree h hb hfree, if_neg Nat.one_ne_zero, returns_getSize h hb, returns_pure]
    exact ⟨rfl, rfl⟩

theorem plusHeader_of_lt (h : size + headerSize < 2 ^ 64) : plusHeader size = size + headerSize :=
  Nat.mod_eq_of_lt h

/-- **The loop of `mm_malloc`**, by induction on the turns: no block so far fits. -/
theorem mallocLoop_returns {turns prev : ℕ} (h : Shape S (pre ++ post))
    (hnew : Fresh S (pre ++ post) size new) (hzero : Block.Zeroed ⟨new, size, false⟩ S.mem)
    (hnonempty : pre ++ post ≠ []) (hnone : ∀ d ∈ pre, d.fits size = false)
    (hprev : ∀ pre' last, pre = pre' ++ [last] → prev = last.addr) (hturns : post.length < turns)
    (hsize : size + headerSize < 2 ^ 64)
    (hsplit : ∀ b, post.find? (Block.fits size) = some b → b.size ≤ size + headerSize) :
    Returns (mallocLoop size new turns (headOf post) prev) S (Gives S (pre ++ post) size) := by
  induction turns generalizing pre post prev with
  | zero => cases hturns
  | succ turns ih =>
    unfold mallocLoop
    cases post with
    | nil =>
      rw [List.append_nil] at h hnew hnonempty ⊢
      obtain ⟨pre', last, rfl⟩ : ∃ pre' last, pre = pre' ++ [last] :=
        ⟨_, _, (List.dropLast_append_getLast hnonempty).symm⟩
      rw [show headOf [] = 0 from rfl, if_pos rfl, hprev pre' last rfl]
      exact h.appended hnew hzero hnone
    | cons b post =>
      have hb : b ∈ pre ++ b :: post := by simp
      rw [show headOf (b :: post) = b.addr from rfl, if_neg (Nat.ne_of_gt (h.addr_pos hb))]
      refine (fitsAt_returns h hb).seq ?_
      rintro _ _ ⟨rfl, rfl⟩
      cases hfits : b.fits size with
      | true =>
        have hle := hsplit b (List.find?_cons_of_pos hfits)
        obtain ⟨hfree, hbsize⟩ := Bool.and_eq_true_iff.1 hfits
        rw [if_pos rfl, returns_getSize h hb, plusHeader_of_lt hsize, if_pos hle]
        exact h.taken hfree (of_decide_eq_true hbsize)
      | false =>
        rw [if_neg nofun, returns_getNext h]
        have hassoc : pre ++ b :: post = (pre ++ [b]) ++ post := by simp
        rw [hassoc] at h hnew hnonempty ⊢
        refine ih h hnew hnonempty (fun d hd => ?_) (fun pre' last hlast => ?_)
          (Nat.lt_of_succ_lt_succ hturns) fun d hd => hsplit d ?_
        · rcases List.mem_append.1 hd with hd | hd
          · exact hnone d hd
          · rw [List.mem_singleton.1 hd]
            exact hfits
        · exact congrArg Block.addr (List.singleton_inj.1 (List.append_inj' hlast rfl).2)
        · rw [List.find?_cons_of_neg (by rw [hfits]; exact nofun)]
          exact hd

/-! ### `mm_malloc` -/

theorem numberAt_zero {a n : ℕ} (h : ∀ p, a ≤ p → p < a + n → m p = 0) : numberAt m a n = 0 := by
  induction n generalizing a with
  | zero => rfl
  | succ n ih =>
    rw [numberAt, h a (Nat.le_refl a) (by omega), ih fun p hlo hhi => h p (by omega) (by omega)]
    rfl

/-- The memory that the loop of `mm_malloc` starts with. -/
def MmHeap.withNew (S : MmHeap) (size : ℕ) : MmHeap :=
  { S with
    mem := store (store (store S.mem S.brk (List.replicate (size + headerSize) 0)) S.brk
      (bytesOf 8 size)) (S.brk + 24) (bytesOf 4 1)
    grants := fun k => S.grants (k + 1)
    brk := S.brk + (size + headerSize) }

/-- The bytes below the old break are as they were. -/
theorem withNew_mem {p : ℕ} (hp : p < S.brk) : (S.withNew size).mem p = S.mem p := by
  unfold MmHeap.withNew
  dsimp only
  rw [store_of_lt (by omega), store_of_lt hp, store_of_lt hp]

theorem Shape.withNew_same (h : Shape S bs) (hb : b ∈ bs) : b.Same S.mem (S.withNew size).mem :=
  fun _ _ hhi => withNew_mem (Nat.lt_of_lt_of_le hhi (h.hi b hb))

theorem Shape.withNew (h : Shape S bs) (hlimit : S.brk + (size + headerSize) ≤ S.limit) :
    Shape (S.withNew size) bs where
  chain := h.chain.congr fun _ hb => h.withNew_same hb
  apart := h.apart
  lo := h.lo
  hi b hb := Nat.le_trans (h.hi b hb) (Nat.le_add_right ..)
  start := ⟨h.start.1, Nat.le_trans h.start.2 (Nat.le_add_right ..)⟩
  below := hlimit
  small := h.small

theorem Shape.fresh (h : Shape S bs) (hsize : size + headerSize < 2 ^ 64) :
    Fresh (S.withNew size) bs size S.brk where
  base := h.start.2
  behind := h.hi
  room := by
    change S.brk + headerSize + size ≤ S.brk + (size + headerSize)
    omega
  sizeField := by
    unfold MmHeap.withNew
    dsimp only
    rw [numberAt_store_of_apart (.inl (by omega))]
    exact numberAt_store_self (by unfold headerSize at hsize; omega)

theorem store_zero {a n p : ℕ} (hlo : a ≤ p) (hhi : p < a + n) :
    store m a (List.replicate n 0) p = 0 := by
  have hstored : Holds (store m a (List.replicate n 0)) a (List.replicate n 0) := holds_store
  have hholds := hstored (p - a) 0 ?_
  · rwa [Nat.add_sub_of_le hlo] at hholds
  · rw [List.getElem?_replicate, if_pos (by omega)]

/-- A new block has no next one. -/
theorem withNew_next : numberAt (S.withNew size).mem (S.brk + 8) 8 = 0 := by
  unfold MmHeap.withNew
  dsimp only
  rw [numberAt_store_of_apart (.inl (by omega)),
    numberAt_store_of_apart (.inr (by rw [length_bytesOf]))]
  exact numberAt_zero fun p hlo hhi => store_zero (by omega) (by unfold headerSize; omega)

/-- The payload of a new block is cleared. -/
theorem withNew_zeroed : Block.Zeroed ⟨S.brk, size, false⟩ (S.withNew size).mem := by
  intro p hlo hhi
  unfold Block.fin dataOffset at hhi
  unfold dataOffset at hlo
  dsimp only at hlo hhi
  unfold MmHeap.withNew
  dsimp only
  rw [store_of_ge (by rw [length_bytesOf]; omega), store_of_ge (by rw [length_bytesOf]; omega)]
  exact store_zero (by omega) (by unfold headerSize; omega)

/-- The first block of a heap. -/
theorem Shape.first (h : Shape S []) (hsize : size + headerSize < 2 ^ 64)
    (hlimit : S.brk + (size + headerSize) ≤ S.limit) :
    Returns (do setFree S.brk 0; return some (S.brk + dataOffset))
      { S.withNew size with listHead := S.brk } (Gives (S.withNew size) [] size) := by
  have hstart := h.start
  have hfresh := h.fresh hsize
  have hbrk : (S.withNew size).brk = S.brk + (size + 32) := rfl
  have hinside : ({ S.withNew size with listHead := S.brk } : MmHeap).Inside (S.brk + 24)
      (bytesOf 4 0).length := by
    rw [length_bytesOf]
    refine ⟨?_, ?_⟩
    · change S.base ≤ S.brk + 24
      omega
    · dsimp only
      omega
  unfold setFree
  rw [returns_storeBytes hinside, returns_pure]
  refine ⟨[⟨S.brk, size, false⟩], ⟨S.brk, size, false⟩, rfl, ⟨⟨⟨rfl, ⟨?_, ?_⟩, ?_⟩,
    List.pairwise_singleton _ _, fun d hd => ?_, fun d hd => ?_, ?_, hlimit, h.small⟩,
    Nat.le_refl _, .refl _, nofun⟩, .inr ⟨rfl, rfl, fun p hlo hhi => ?_, nofun⟩, rfl, nofun⟩
  · dsimp only
    rw [numberAt_store_of_apart (.inl (by omega))]
    exact hfresh.sizeField
  · exact numberAt_store_self (by omega)
  · dsimp only
    rw [numberAt_store_of_apart (.inl (by omega))]
    exact withNew_next
  · rw [List.mem_singleton.1 hd]
    exact hstart.2
  · rw [List.mem_singleton.1 hd]
    unfold Block.fin dataOffset
    dsimp only
    omega
  · exact ⟨hstart.1, Nat.le_trans hstart.2 (Nat.le_add_right ..)⟩
  · have hpayload := withNew_zeroed p hlo hhi
    dsimp only
    rwa [store_of_ge (by rw [length_bytesOf]; unfold dataOffset at hlo; dsimp only at hlo; omega)]

/-- What is given from the heap with the new block. -/
theorem Gives.of_withNew {res : Option ℕ} {S' : MmHeap} (h : Shape S bs)
    (hgives : Gives (S.withNew size) bs size res S') : Gives S bs size res S' := by
  obtain ⟨bs', b, hres, hb⟩ := hgives
  have hkept : ∀ d ∈ bs, d.SameData S.mem S'.mem := fun d hd q hlo hhi => by
    rw [hb.kept d hd q hlo hhi]
    exact (h.withNew_same hd).data q hlo hhi
  exact ⟨bs', b, hres, ⟨hb.shape, hb.size, hb.inUse, fun d hd => hkept d (mem_used.1 hd).1⟩,
    hb.place, hb.unused, hkept⟩

theorem run_sbrk {n : ℕ} (h : S.grants 0 = true ∧ S.brk + n ≤ S.limit) : (sbrk n).run S =
    some (some S.brk, { S with grants := fun k => S.grants (k + 1), brk := S.brk + n }) := by
  unfold sbrk
  rw [run_bind_of_run (a := S) (t := S) rfl, if_pos h]
  rfl

theorem run_sbrk_none {n : ℕ} (h : ¬(S.grants 0 = true ∧ S.brk + n ≤ S.limit)) : (sbrk n).run S =
    some (none, { S with grants := fun k => S.grants (k + 1) }) := by
  unfold sbrk
  rw [run_bind_of_run (a := S) (t := S) rfl, if_neg h]
  rfl

/-- The block that is found is not split. -/
def MmHeap.SplitsNone (S : MmHeap) (size : ℕ) : Prop :=
  ∀ bs, Shape S bs → ∀ b, bs.find? (Block.fits size) = some b →
    b.size ≤ size + headerSize

/-- The condition on `mm_malloc`: if `sbrk` gives it memory, the size does not wrap around and no
block is split. -/
def MmHeap.MallocMeets (S : MmHeap) (size : ℕ) : Prop :=
  size ≠ 0 → S.grants 0 = true → S.brk + plusHeader size ≤ S.limit →
    size + headerSize < 2 ^ 64 ∧ S.SplitsNone size

/-- **`mm_malloc`**, where the condition is met. -/
theorem mmMalloc_places (h : Shape S bs) (hmeets : S.MallocMeets size) :
    Returns (mmMalloc size) S fun res S' =>
      (res = none ∧ Shape S' bs ∧ S'.mem = S.mem) ∨ Gives S bs size res S' := by
  unfold mmMalloc
  split_ifs with hzero
  · exact returns_pure.2 (.inl ⟨rfl, h, rfl⟩)
  by_cases hgrant : S.grants 0 = true ∧ S.brk + plusHeader size ≤ S.limit
  · obtain ⟨hlt, hsplit⟩ := hmeets hzero hgrant.1 hgrant.2
    have hplus := plusHeader_of_lt hlt
    rw [hplus] at hgrant ⊢
    have hshape := h.withNew hgrant.2
    have hstart := h.start.2
    rw [returns_bind_of_run (run_sbrk hgrant)]
    set S₁ : MmHeap := { S with grants := fun k => S.grants (k + 1), brk := S.brk + (size + headerSize) }
    have h₁ : S₁.Inside S.brk (List.replicate (size + headerSize) (0 : UInt8)).length := by
      rw [List.length_replicate]
      exact ⟨hstart, Nat.le_refl _⟩
    have h₂ : S₁.Inside S.brk (bytesOf 8 size).length := by
      rw [length_bytesOf]
      exact ⟨hstart, Nat.add_le_add_left (by unfold headerSize; omega) _⟩
    have h₃ : S₁.Inside (S.brk + 24) (bytesOf 4 1).length := by
      rw [length_bytesOf]
      refine ⟨Nat.le_trans hstart (Nat.le_add_right ..), ?_⟩
      change S.brk + 24 + 4 ≤ S.brk + (size + headerSize)
      unfold headerSize
      omega
    unfold memset setSize setFree
    dsimp only
    refine (returns_storeBytes h₁).2 ((returns_storeBytes ?_).2 ((returns_storeBytes ?_).2 ?_))
    · exact h₂
    · exact h₃
    change Returns (get >>= _) (S.withNew size) _
    rw [returns_get_bind]
    refine Returns.mono ?_ fun res S' hgives => .inr (Gives.of_withNew h hgives)
    have hhead : (S.withNew size).listHead = headOf bs := h.chain.head
    cases bs with
    | nil =>
      rw [if_pos (show (S.withNew size).listHead = 0 from hhead), returns_set_bind]
      exact h.first hlt hgrant.2
    | cons b bs =>
      rw [if_neg (hhead ▸ Nat.ne_of_gt (h.addr_pos List.mem_cons_self)),
        returns_bind_of_run (run_turnsOf _), hhead]
      have hshape' : Shape (S.withNew size) ([] ++ b :: bs) := hshape
      exact mallocLoop_returns hshape' (h.fresh hlt) withNew_zeroed nofun nofun
        (fun pre' last hnil => by simp at hnil) (Nat.lt_succ_of_le hshape.length_le) hlt
        (hsplit _ h)
  · rw [returns_bind_of_run (run_sbrk_none hgrant)]
    exact returns_pure.2 (.inl ⟨rfl, ⟨h.chain, h.apart, h.lo, h.hi, h.start, h.below, h.small⟩, rfl⟩)

theorem mmMalloc_returns (h : Shape S bs) (hmeets : S.MallocMeets size) :
    Returns (mmMalloc size) S (MallocDone S bs size) := by
  refine (mmMalloc_places h hmeets).mono fun res S' hdone => hdone.imp_right ?_
  rintro ⟨bs', b, hres, hb⟩
  exact ⟨bs', b, hres, hb.toAllocated⟩

end HwMemory
end CS162

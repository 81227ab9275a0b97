/-
# The list of blocks of the user heap

The blocks that the allocator's list runs through, in memory (`Chain`) and one behind the
other in the heap (`Shape`).  A block's size is at byte 0, its `next` at byte 8 and its
`free` at byte 24.

`Tidied` is what the loops of `mm_free` do: they join free blocks and clear them, and leave
every block in use with its bytes.  `mmFree_returns` puts them together.
-/

import Mathlib.Data.List.Basic
import CS162.HwMemory.MmAlloc

namespace CS162
namespace HwMemory

open CS162.Basis

/-! ### Loads and stores -/

section Access

variable {α : Type} {S : MmHeap} {a n : ℕ} {bytes : List UInt8}

theorem run_load (h : S.Inside a n) : (load a n).run S = some (numberAt S.mem a n, S) := by
  unfold load
  rw [run_bind_of_run (a := S) (t := S) rfl, if_pos h]
  rfl

theorem run_storeBytes (h : S.Inside a bytes.length) :
    (storeBytes a bytes).run S = some ((), { S with mem := store S.mem a bytes }) := by
  unfold storeBytes
  rw [run_bind_of_run (a := S) (t := S) rfl, if_pos h]
  rfl

theorem returns_load {f : ℕ → OnMmHeap α} {Q : α → MmHeap → Prop} (h : S.Inside a n) :
    Returns (load a n >>= f) S Q ↔ Returns (f (numberAt S.mem a n)) S Q :=
  returns_bind_of_run (run_load h)

theorem returns_storeBytes {f : Unit → OnMmHeap α} {Q : α → MmHeap → Prop}
    (h : S.Inside a bytes.length) : Returns (storeBytes a bytes >>= f) S Q ↔
      Returns (f ()) { S with mem := store S.mem a bytes } Q :=
  returns_bind_of_run (run_storeBytes h)

theorem storeBytes_returns {Q : Unit → MmHeap → Prop} (h : S.Inside a bytes.length)
    (hQ : Q () { S with mem := store S.mem a bytes }) : Returns (storeBytes a bytes) S Q :=
  ⟨(), _, run_storeBytes h, hQ⟩

end Access

/-! ### Blocks -/

/-- A `struct block`. -/
structure Block where
  addr : ℕ
  size : ℕ
  free : Bool

/-- The end of a block's payload. -/
def Block.fin (b : Block) : ℕ := b.addr + dataOffset + b.size

/-- The block's fields are in memory. -/
structure Block.In (b : Block) (m : Memory) : Prop where
  size : numberAt m b.addr 8 = b.size
  free : numberAt m (b.addr + 24) 4 = if b.free then 1 else 0

/-- The list from the pointer on runs through the blocks. -/
def Chain (m : Memory) : ℕ → List Block → Prop
  | a, [] => a = 0
  | a, b :: bs => a = b.addr ∧ b.In m ∧ Chain m (numberAt m (b.addr + 8) 8) bs

/-- The pointer to a list. -/
def headOf : List Block → ℕ
  | [] => 0
  | b :: _ => b.addr

/-- **The blocks of the heap.** -/
structure Shape (S : MmHeap) (bs : List Block) : Prop where
  chain : Chain S.mem S.listHead bs
  apart : bs.Pairwise fun b c => b.fin ≤ c.addr
  lo : ∀ b ∈ bs, S.base ≤ b.addr
  hi : ∀ b ∈ bs, b.fin ≤ S.brk
  start : 0 < S.base ∧ S.base ≤ S.brk
  below : S.brk ≤ S.limit
  small : S.limit < 2 ^ 63

/-- The memory agrees on a block's bytes. -/
def Block.Same (b : Block) (m m' : Memory) : Prop := ∀ p, b.addr ≤ p → p < b.fin → m' p = m p

variable {m m' : Memory} {a : ℕ} {b c : Block} {bs pre post : List Block}

theorem Block.addr_lt_fin (b : Block) : b.addr + 28 ≤ b.fin := by
  unfold Block.fin dataOffset
  omega

theorem Block.In.congr (h : b.In m) (hsame : b.Same m m') : b.In m' where
  size := by
    rw [← h.size]
    exact numberAt_congr fun p hlo hhi => hsame p hlo (by have := b.addr_lt_fin; omega)
  free := by
    rw [← h.free]
    exact numberAt_congr fun p hlo hhi => hsame p (by omega) (by have := b.addr_lt_fin; omega)

theorem next_congr (hsame : b.Same m m') : numberAt m' (b.addr + 8) 8 = numberAt m (b.addr + 8) 8 :=
  numberAt_congr fun p hlo hhi => hsame p (by omega) (by have := b.addr_lt_fin; omega)

theorem Chain.head (h : Chain m a bs) : a = headOf bs := by
  cases bs with
  | nil => exact h
  | cons b bs => exact h.1

/-- **The list depends on its blocks' bytes alone.** -/
theorem Chain.congr (h : Chain m a bs) (hsame : ∀ b ∈ bs, b.Same m m') : Chain m' a bs := by
  induction bs generalizing a with
  | nil => exact h
  | cons b bs ih =>
    obtain ⟨ha, hin, hrest⟩ := h
    have hb := hsame b List.mem_cons_self
    refine ⟨ha, hin.congr hb, ?_⟩
    rw [next_congr hb]
    exact ih hrest fun c hc => hsame c (List.mem_cons_of_mem _ hc)

/-- The list from a block on. -/
theorem Chain.drop (h : Chain m a (pre ++ bs)) : Chain m (headOf bs) bs := by
  induction pre generalizing a with
  | nil =>
    have ha : a = headOf bs := h.head
    rw [← ha]
    exact h
  | cons b pre ih => exact ih h.2.2

/-- **The end of a list is replaced.** -/
theorem Chain.replace {bs' : List Block} (h : Chain m a (pre ++ bs)) (hsame : ∀ b ∈ pre, b.Same m m')
    (hbs : Chain m' (headOf bs) bs') : Chain m' a (pre ++ bs') := by
  induction pre generalizing a with
  | nil =>
    have ha : a = headOf bs := h.head
    rw [ha]
    exact hbs
  | cons b pre ih =>
    obtain ⟨ha, hin, hrest⟩ := h
    have hb := hsame b List.mem_cons_self
    refine ⟨ha, hin.congr hb, ?_⟩
    rw [next_congr hb]
    exact ih hrest fun c hc => hsame c (List.mem_cons_of_mem _ hc)

/-- A store to another place. -/
theorem Block.same_store {k : ℕ} {bytes : List UInt8}
    (h : b.fin ≤ k ∨ k + bytes.length ≤ b.addr) : b.Same m (store m k bytes) := by
  intro p hlo hhi
  rcases h with h | h
  · exact store_of_lt (by omega)
  · exact store_of_ge (by omega)

theorem Block.Same.trans {m'' : Memory} (h : b.Same m m') (h' : b.Same m' m'') : b.Same m m'' :=
  fun p hlo hhi => (h' p hlo hhi).trans (h p hlo hhi)

theorem Chain.fields (h : Chain m a bs) (hb : b ∈ bs) : b.In m := by
  induction bs generalizing a with
  | nil => cases hb
  | cons c bs ih =>
    rcases List.mem_cons.1 hb with rfl | hb
    · exact h.2.1
    · exact ih h.2.2 hb

/-! ### A block of the heap -/

section Shapes

variable {S : MmHeap} {α : Type} {Q : α → MmHeap → Prop}

theorem Shape.inside (h : Shape S bs) (hb : b ∈ bs) {k n : ℕ} (hk : k + n ≤ 28 + b.size) :
    S.Inside (b.addr + k) n := by
  have hlo := h.lo b hb
  have hhi := h.hi b hb
  unfold Block.fin dataOffset at hhi
  exact ⟨by omega, by omega⟩

theorem Shape.addr_pos (h : Shape S bs) (hb : b ∈ bs) : 0 < b.addr :=
  Nat.lt_of_lt_of_le h.start.1 (h.lo b hb)

theorem returns_getSize {f : ℕ → OnMmHeap α} (h : Shape S bs) (hb : b ∈ bs) :
    Returns (getSize b.addr >>= f) S Q ↔ Returns (f b.size) S Q := by
  have hinside : S.Inside b.addr 8 := h.inside (k := 0) hb (by omega)
  have hload := returns_load (f := f) (Q := Q) hinside
  rw [(h.chain.fields hb).size] at hload
  exact hload

theorem returns_getFree {f : ℕ → OnMmHeap α} (h : Shape S bs) (hb : b ∈ bs)
    (hfree : b.free = true) : Returns (getFree b.addr >>= f) S Q ↔ Returns (f 1) S Q := by
  have hload := returns_load (f := f) (Q := Q) (h.inside (k := 24) (n := 4) hb (by omega))
  rw [(h.chain.fields hb).free, if_pos hfree] at hload
  exact hload

theorem returns_getFree_used {f : ℕ → OnMmHeap α} (h : Shape S bs) (hb : b ∈ bs)
    (hfree : b.free = false) : Returns (getFree b.addr >>= f) S Q ↔ Returns (f 0) S Q := by
  have hload := returns_load (f := f) (Q := Q) (h.inside (k := 24) (n := 4) hb (by omega))
  rw [(h.chain.fields hb).free, hfree, if_neg nofun] at hload
  exact hload

theorem Shape.next (h : Shape S (pre ++ b :: post)) :
    numberAt S.mem (b.addr + 8) 8 = headOf post :=
  (Chain.head h.chain.drop.2.2)

theorem returns_getNext {f : ℕ → OnMmHeap α} (h : Shape S (pre ++ b :: post)) :
    Returns (getNext b.addr >>= f) S Q ↔ Returns (f (headOf post)) S Q := by
  have hinside : S.Inside (b.addr + 8) 8 := h.inside (b := b) (by simp) (by omega)
  have hload := returns_load (f := f) (Q := Q) hinside
  rw [h.next] at hload
  exact hload

theorem Shape.before (h : Shape S (pre ++ b :: post)) {d : Block} (hd : d ∈ pre) : d.fin ≤ b.addr :=
  (List.pairwise_append.1 h.apart).2.2 d hd b List.mem_cons_self

theorem Shape.behind (h : Shape S (pre ++ b :: post)) {d : Block} (hd : d ∈ post) : b.fin ≤ d.addr :=
  (List.pairwise_cons.1 (List.pairwise_append.1 h.apart).2.1).1 d hd

/-- Bytes of a block are written. -/
theorem Shape.same_store (h : Shape S (pre ++ b :: post)) {d : Block} (hd : d ∈ pre ++ post)
    {k : ℕ} {bytes : List UInt8} (hk : k + bytes.length ≤ 28 + b.size) :
    d.Same m (store m (b.addr + k) bytes) := by
  refine Block.same_store ?_
  rcases List.mem_append.1 hd with hd | hd
  · have := h.before hd
    omega
  · have := h.behind hd
    unfold Block.fin dataOffset at this
    omega

/-- **A block is rewritten**, and blocks behind it may leave the list. -/
theorem Shape.rewrite {b' : Block} {rest : List Block} (h : Shape S (pre ++ b :: post))
    (haddr : b'.addr = b.addr) (hrest : rest <:+ post) (hbehind : ∀ d ∈ rest, b'.fin ≤ d.addr)
    (hhi : b'.fin ≤ S.brk) (hin : b'.In m') (hnext : numberAt m' (b.addr + 8) 8 = headOf rest)
    (hsame : ∀ d ∈ pre ++ rest, d.Same S.mem m') : Shape { S with mem := m' } (pre ++ b' :: rest) := by
  obtain ⟨hpre, hpost, hacross⟩ := List.pairwise_append.1 h.apart
  have hsub : ∀ d ∈ rest, d ∈ post := fun d hd => hrest.subset hd
  refine ⟨?_, ?_, ?_, ?_, h.start, h.below, h.small⟩
  · refine h.chain.replace (fun d hd => hsame d (List.mem_append_left _ hd)) ⟨haddr.symm, hin, ?_⟩
    rw [haddr, hnext]
    obtain ⟨skipped, rfl⟩ := hrest
    have hchain := h.chain
    rw [show pre ++ b :: (skipped ++ rest) = (pre ++ b :: skipped) ++ rest by simp] at hchain
    exact hchain.drop.congr fun d hd => hsame d (List.mem_append_right _ hd)
  · refine List.pairwise_append.2 ⟨hpre, List.pairwise_cons.2 ⟨hbehind, ?_⟩, fun d hd e he => ?_⟩
    · exact (List.pairwise_cons.1 hpost).2.sublist hrest.sublist
    · rcases List.mem_cons.1 he with rfl | he
      · rw [haddr]
        exact h.before hd
      · exact hacross d hd e (List.mem_cons_of_mem _ (hsub e he))
  · intro d hd
    rcases List.mem_append.1 hd with hd | hd
    · exact h.lo d (List.mem_append_left _ hd)
    · rcases List.mem_cons.1 hd with rfl | hd
      · rw [haddr]
        exact h.lo b (by simp)
      · exact h.lo d (List.mem_append_right _ (List.mem_cons_of_mem _ (hsub d hd)))
  · intro d hd
    rcases List.mem_append.1 hd with hd | hd
    · exact h.hi d (List.mem_append_left _ hd)
    · rcases List.mem_cons.1 hd with rfl | hd
      · exact hhi
      · exact h.hi d (List.mem_append_right _ (List.mem_cons_of_mem _ (hsub d hd)))

theorem add_length_le {lo hi : ℕ} (hle : lo ≤ hi) (hapart : bs.Pairwise fun b c => b.fin ≤ c.addr)
    (hlo : ∀ b ∈ bs, lo ≤ b.addr) (hhi : ∀ b ∈ bs, b.fin ≤ hi) : lo + bs.length ≤ hi := by
  induction bs generalizing lo with
  | nil => exact hle
  | cons b bs ih =>
    have hb := hlo b List.mem_cons_self
    have hfin := hhi b List.mem_cons_self
    have hpos := b.addr_lt_fin
    obtain ⟨hfirst, hrest⟩ := List.pairwise_cons.1 hapart
    have hlen := ih hfin hrest hfirst fun d hd => hhi d (List.mem_cons_of_mem _ hd)
    rw [List.length_cons]
    omega

/-- There are fewer blocks than bytes. -/
theorem Shape.length_le (h : Shape S bs) : bs.length ≤ S.brk := by
  cases bs with
  | nil => exact Nat.zero_le _
  | cons b bs =>
    have hb := b.addr_lt_fin
    have hfin := h.hi b List.mem_cons_self
    have hlen := add_length_le (Nat.zero_le S.brk) h.apart (fun d _ => Nat.zero_le _) h.hi
    omega

/-! ### Fields -/

/-- A block as an `int` of its list has it. -/
theorem Shape.flagged (h : Shape S (pre ++ b :: post)) (free : Bool) :
    Shape { S with mem := store S.mem (b.addr + 24) (bytesOf 4 (if free then 1 else 0)) }
      (pre ++ { b with free := free } :: post) := by
  have hin := h.chain.fields (b := b) (by simp)
  refine h.rewrite rfl List.suffix_rfl (fun d hd => h.behind hd) (h.hi b (by simp)) ⟨?_, ?_⟩ ?_
    fun d hd => h.same_store hd (by rw [length_bytesOf]; omega)
  · dsimp only
    rw [numberAt_store_of_apart (.inl (by omega))]
    exact hin.size
  · exact numberAt_store_self (by split_ifs <;> omega)
  · rw [numberAt_store_of_apart (.inl (by omega))]
    exact h.next

/-- Bytes of a block's payload are written. -/
theorem Shape.written (h : Shape S (pre ++ b :: post)) {k : ℕ} {bytes : List UInt8}
    (hk : dataOffset ≤ k) (hlen : k + bytes.length ≤ 28 + b.size) :
    Shape { S with mem := store S.mem (b.addr + k) bytes } (pre ++ b :: post) := by
  have hin := h.chain.fields (b := b) (by simp)
  unfold dataOffset at hk
  refine h.rewrite rfl List.suffix_rfl (fun d hd => h.behind hd) (h.hi b (by simp)) ⟨?_, ?_⟩ ?_
    fun d hd => h.same_store hd hlen
  · rw [numberAt_store_of_apart (.inl (by omega))]
    exact hin.size
  · rw [numberAt_store_of_apart (.inl (by omega))]
    exact hin.free
  · rw [numberAt_store_of_apart (.inl (by omega))]
    exact h.next

/-- The bytes of a block's fields and payload lie in the heap. -/
theorem Shape.inside_store (h : Shape S bs) (hb : b ∈ bs) {k : ℕ} {bytes : List UInt8}
    (hk : k + bytes.length ≤ 28 + b.size) : S.Inside (b.addr + k) bytes.length :=
  h.inside hb hk

/-! ### Free blocks are joined and cleared -/

/-- The blocks in use. -/
def used (bs : List Block) : List Block := bs.filter fun b => !b.free

/-- **Free blocks change**, and the blocks in use are left as they are. -/
structure Tidied (S : MmHeap) (bs : List Block) (m' : Memory) (bs' : List Block) : Prop where
  shape : Shape { S with mem := m' } bs'
  inUse : used bs' = used bs
  same : ∀ b ∈ used bs, b.Same S.mem m'

theorem Tidied.refl (h : Shape S bs) : Tidied S bs S.mem bs := ⟨h, rfl, fun _ _ _ _ _ => rfl⟩

theorem Tidied.trans {bs' bs'' : List Block} {m'' : Memory} (h : Tidied S bs m' bs')
    (h' : Tidied { S with mem := m' } bs' m'' bs'') : Tidied S bs m'' bs'' where
  shape := h'.shape
  inUse := h'.inUse.trans h.inUse
  same b hb := (h.same b hb).trans (h'.same b (h.inUse ▸ hb))

theorem used_append (bs bs' : List Block) : used (bs ++ bs') = used bs ++ used bs' :=
  List.filter_append ..

theorem used_cons_free (hb : b.free = true) : used (b :: bs) = used bs := by
  unfold used
  rw [List.filter_cons_of_neg (by simp [hb])]

theorem mem_used : b ∈ used bs ↔ b ∈ bs ∧ b.free = false := by
  unfold used
  rw [List.mem_filter, Bool.not_eq_true']

/-- A call that tidies. -/
def Tidies (x : OnMmHeap Unit) (S : MmHeap) (bs : List Block) : Prop :=
  Returns x S fun _ S' => ∃ m' bs', S' = { S with mem := m' } ∧ Tidied S bs m' bs'

theorem tidies_return (h : Shape S bs) : Tidies (pure ()) S bs :=
  returns_pure.2 ⟨S.mem, bs, rfl, .refl h⟩

/-- Pointers to blocks have 64 bits. -/
theorem Shape.headOf_lt (h : Shape S (pre ++ post)) : headOf post < 2 ^ 63 := by
  cases post with
  | nil => exact Nat.two_pow_pos 63
  | cons d post =>
    have hd := h.hi d (by simp)
    have hhead := d.addr_lt_fin
    have hbelow := h.below
    have hsmall := h.small
    change d.addr < 2 ^ 63
    omega

/-- A free block takes the block behind it in. -/
theorem Shape.absorbed (h : Shape S (pre ++ b :: c :: post)) (hfree : b.free = true) :
    ∃ m', Returns (absorb b.addr c.addr) S (fun _ S' => S' = { S with mem := m' }) ∧
      Shape { S with mem := m' } (pre ++ ⟨b.addr, b.size + c.size, true⟩ :: post) ∧
      ∀ d ∈ pre ++ post, d.Same S.mem m' := by
  have hb : b ∈ pre ++ b :: c :: post := by simp
  have hc : c ∈ pre ++ b :: c :: post := by simp
  have hbc : b.fin ≤ c.addr := h.behind (d := c) (by simp)
  have hcfin := h.hi c hc
  have hin := h.chain.fields hb
  have hsplit : pre ++ b :: c :: post = (pre ++ [b]) ++ c :: post := by simp
  have hc' : Shape S ((pre ++ [b]) ++ c :: post) := hsplit ▸ h
  have hpost : headOf post < 2 ^ 63 := by
    have hshape : Shape S ((pre ++ [b, c]) ++ post) := by simpa using h
    exact hshape.headOf_lt
  have hbelow := h.below
  have hsmall := h.small
  unfold Block.fin dataOffset at hbc hcfin
  have hsum : (b.size + c.size) % 2 ^ 64 = b.size + c.size := Nat.mod_eq_of_lt (by omega)
  -- the two stores
  set m₁ := store S.mem b.addr (bytesOf 8 (b.size + c.size)) with hm₁
  set m₂ := store m₁ (b.addr + 8) (bytesOf 8 (headOf post)) with hm₂
  have hother : ∀ d ∈ pre ++ c :: post, d.Same S.mem m₂ := by
    intro d hd
    have hfirst : d.Same S.mem m₁ := h.same_store hd (k := 0) (by rw [length_bytesOf]; omega)
    refine hfirst.trans (Block.same_store ?_)
    rw [length_bytesOf]
    rcases List.mem_append.1 hd with hd | hd
    · exact .inl (Nat.le_trans (h.before hd) (by omega))
    · have := h.behind hd
      unfold Block.fin dataOffset at this
      exact .inr (by omega)
  refine ⟨m₂, ?_, ?_, fun d hd => hother d ?_⟩
  · unfold absorb
    rw [returns_getSize h hb, returns_getSize h hc, hsum]
    unfold setSize
    have hinsideb : S.Inside b.addr (bytesOf 8 (b.size + c.size)).length :=
      h.inside_store (k := 0) hb (by rw [length_bytesOf]; omega)
    rw [returns_storeBytes hinsideb]
    unfold getNext setNext
    have hinsidec : S.Inside (c.addr + 8) 8 := h.inside hc (by omega)
    rw [returns_load (S := { S with mem := m₁ }) hinsidec]
    have hread : numberAt m₁ (c.addr + 8) 8 = headOf post := by
      rw [numberAt_store_of_apart (.inr (by rw [length_bytesOf]; omega))]
      exact hc'.next
    dsimp only
    rw [hread]
    exact ⟨(), _, run_storeBytes (S := { S with mem := m₁ })
      (h.inside_store (k := 8) hb (by rw [length_bytesOf]; omega)), rfl⟩
  · refine h.rewrite rfl (List.suffix_cons c post) (fun d hd => ?_) ?_ ⟨?_, ?_⟩ ?_
      fun d hd => hother d ?_
    · have := hc'.behind hd
      unfold Block.fin dataOffset at this ⊢
      dsimp only
      omega
    · unfold Block.fin dataOffset
      dsimp only
      omega
    · dsimp only
      rw [numberAt_store_of_apart (.inl (by omega))]
      exact numberAt_store_self (by omega)
    · dsimp only
      rw [numberAt_store_of_apart (.inr (by rw [length_bytesOf]; omega)),
        numberAt_store_of_apart (.inr (by rw [length_bytesOf]; omega)), hin.free, hfree]
    · exact numberAt_store_self (by omega)
    · exact List.mem_append.2 ((List.mem_append.1 hd).imp_right (List.mem_cons_of_mem c))
  · exact List.mem_append.2 ((List.mem_append.1 hd).imp_right (List.mem_cons_of_mem c))

theorem absorb_tidied (h : Shape S (pre ++ b :: c :: post)) (hb : b.free = true)
    (hc : c.free = true) :
    ∃ m', Returns (absorb b.addr c.addr) S (fun _ S' => S' = { S with mem := m' }) ∧
      Tidied S (pre ++ b :: c :: post) m' (pre ++ ⟨b.addr, b.size + c.size, true⟩ :: post) := by
  obtain ⟨m', hrun, hshape, hsame⟩ := h.absorbed hb
  have hused : used (pre ++ b :: c :: post) = used (pre ++ post) := by
    rw [used_append, used_cons_free hb, used_cons_free hc, used_append]
  refine ⟨m', hrun, hshape, ?_, fun d hd => ?_⟩
  · rw [hused, used_append, used_cons_free rfl, used_append]
  · rw [hused] at hd
    exact hsame d (mem_used.1 hd).1

/-- What follows in a tidied heap. -/
theorem tidies_of_tidied {m' : Memory} {bs' : List Block} {x : OnMmHeap Unit}
    (h : Tidied S bs m' bs') (hx : Tidies x { S with mem := m' } bs') :
    Returns x { S with mem := m' } fun _ S' =>
      ∃ m' bs', S' = { S with mem := m' } ∧ Tidied S bs m' bs' := by
  refine Returns.mono hx ?_
  rintro _ _ ⟨m'', bs'', rfl, h''⟩
  exact ⟨m'', bs'', rfl, h.trans h''⟩

/-- **The first loop of `mm_free`**, by induction on the turns. -/
theorem absorbLoop_tidies {turns : ℕ} (h : Shape S (pre ++ b :: post)) (hb : b.free = true)
    (hturns : post.length < turns) : Tidies (absorbLoop b.addr turns) S (pre ++ b :: post) := by
  induction turns generalizing S b post with
  | zero => cases hturns
  | succ turns ih =>
    unfold absorbLoop Tidies
    rw [returns_getNext h]
    cases post with
    | nil => exact tidies_return h
    | cons c post =>
      have hc : c ∈ pre ++ b :: c :: post := by simp
      rw [show headOf (c :: post) = c.addr from rfl, if_neg (Nat.ne_of_gt (h.addr_pos hc))]
      cases hfree : c.free with
      | false =>
        rw [returns_getFree_used h hc hfree, if_pos rfl]
        exact tidies_return h
      | true =>
        rw [returns_getFree h hc hfree, if_neg Nat.one_ne_zero]
        obtain ⟨m', hrun, htidied⟩ := absorb_tidied h hb hfree
        refine hrun.seq ?_
        rintro _ _ rfl
        exact tidies_of_tidied htidied
          (ih (b := ⟨b.addr, b.size + c.size, true⟩) htidied.shape rfl (Nat.lt_of_succ_lt_succ hturns))

/-- A turn of a loop goes on with the next block. -/
theorem tidies_next {loop : ℕ → OnMmHeap Unit} (h : Shape S (pre ++ b :: post))
    (hrest : Tidies (loop (headOf post)) S ((pre ++ [b]) ++ post)) :
    Tidies (getNext b.addr >>= loop) S (pre ++ b :: post) := by
  unfold Tidies at hrest ⊢
  rw [returns_getNext h]
  rw [show pre ++ b :: post = (pre ++ [b]) ++ post by simp]
  exact hrest

/-- **The second loop.** -/
theorem mergeLoop_tidies {turns : ℕ} (h : Shape S (pre ++ post)) (hturns : post.length < turns) :
    Tidies (mergeLoop turns (headOf post)) S (pre ++ post) := by
  induction turns generalizing S pre post with
  | zero => cases hturns
  | succ turns ih =>
    cases post with
    | nil =>
      unfold mergeLoop
      exact tidies_return h
    | cons b post =>
      have hb : b ∈ pre ++ b :: post := by simp
      have hskip : Tidies (getNext b.addr >>= mergeLoop turns) S (pre ++ b :: post) :=
        tidies_next h (ih (by simpa using h) (Nat.lt_of_succ_lt_succ hturns))
      unfold mergeLoop Tidies
      rw [show headOf (b :: post) = b.addr from rfl, if_neg (Nat.ne_of_gt (h.addr_pos hb))]
      cases hfree : b.free with
      | false =>
        rw [returns_getFree_used h hb hfree, returns_getNext h, if_neg (fun h => h.1 rfl)]
        exact hskip
      | true =>
        rw [returns_getFree h hb hfree, returns_getNext h]
        cases post with
        | nil =>
          rw [if_neg (fun h => h.2 rfl)]
          exact hskip
        | cons c post =>
          have hc : c ∈ pre ++ b :: c :: post := by simp
          rw [if_pos ⟨Nat.one_ne_zero, Nat.ne_of_gt (h.addr_pos hc)⟩]
          cases hcfree : c.free with
          | false =>
            rw [show headOf (c :: post) = c.addr from rfl, returns_getFree_used h hc hcfree,
              if_neg (fun h => h rfl)]
            exact hskip
          | true =>
            rw [show headOf (c :: post) = c.addr from rfl, returns_getFree h hc hcfree,
              if_pos Nat.one_ne_zero]
            obtain ⟨m', hrun, htidied⟩ := absorb_tidied h hfree hcfree
            refine hrun.seq ?_
            rintro _ _ rfl
            refine tidies_of_tidied htidied ?_
            refine tidies_next (b := ⟨b.addr, b.size + c.size, true⟩) htidied.shape (ih ?_ ?_)
            · simpa using htidied.shape
            · exact Nat.lt_of_succ_lt (Nat.lt_of_succ_lt_succ hturns)

/-- A free block's payload is cleared. -/
theorem memset_tidied (h : Shape S (pre ++ b :: post)) (hb : b.free = true) :
    ∃ m', Returns (memset (b.addr + dataOffset) b.size) S (fun _ S' => S' = { S with mem := m' }) ∧
      Tidied S (pre ++ b :: post) m' (pre ++ b :: post) := by
  have hlen : dataOffset + (List.replicate b.size (0 : UInt8)).length ≤ 28 + b.size := by
    rw [List.length_replicate]
    exact Nat.le_refl _
  refine ⟨_, ⟨(), _, run_storeBytes (h.inside_store (b := b) (by simp) hlen), rfl⟩,
    h.written (Nat.le_refl _) hlen, rfl,
    fun d hd => h.same_store ?_ hlen⟩
  rw [used_append, used_cons_free hb, ← used_append] at hd
  exact (mem_used.1 hd).1

/-- **The third loop.** -/
theorem clearLoop_tidies {turns : ℕ} (h : Shape S (pre ++ post)) (hturns : post.length < turns) :
    Tidies (clearLoop turns (headOf post)) S (pre ++ post) := by
  induction turns generalizing S pre post with
  | zero => cases hturns
  | succ turns ih =>
    cases post with
    | nil =>
      unfold clearLoop
      exact tidies_return h
    | cons b post =>
      have hb : b ∈ pre ++ b :: post := by simp
      unfold clearLoop Tidies
      rw [show headOf (b :: post) = b.addr from rfl, if_neg (Nat.ne_of_gt (h.addr_pos hb))]
      cases hfree : b.free with
      | false =>
        rw [returns_getFree_used h hb hfree, if_neg (fun h => h rfl)]
        exact tidies_next h (ih (by simpa using h) (Nat.lt_of_succ_lt_succ hturns))
      | true =>
        rw [returns_getFree h hb hfree, if_pos Nat.one_ne_zero]
        obtain ⟨m', hrun, htidied⟩ := memset_tidied h hfree
        rw [returns_getSize h hb]
        refine hrun.seq ?_
        rintro _ _ rfl
        refine tidies_of_tidied htidied (tidies_next htidied.shape (ih ?_ ?_))
        · simpa using htidied.shape
        · exact Nat.lt_of_succ_lt_succ hturns

theorem run_turnsOf (S : MmHeap) : turnsOf.run S = some (S.brk + 1, S) := rfl

/-- The heap with a block's `free` set. -/
def MmHeap.freed (S : MmHeap) (b : Block) : MmHeap :=
  { S with mem := store S.mem (b.addr + 24) (bytesOf 4 1) }

theorem Shape.freed (h : Shape S (pre ++ b :: post)) :
    Shape (S.freed b) (pre ++ ⟨b.addr, b.size, true⟩ :: post) :=
  h.flagged true

/-- `mm_free` up to its loops: the block is free and its payload is cleared. -/
theorem mmFree_of_loops (h : Shape S (pre ++ b :: post)) {Q : Unit → MmHeap → Prop}
    (hloops : ∀ m', Tidied (S.freed b) (pre ++ ⟨b.addr, b.size, true⟩ :: post) m'
        (pre ++ ⟨b.addr, b.size, true⟩ :: post) →
      Returns (do
        absorbLoop b.addr (S.brk + 1)
        let S' ← get
        mergeLoop (S.brk + 1) S'.listHead
        clearLoop (S.brk + 1) S'.listHead) { S with mem := m' } Q) :
    Returns (mmFree (b.addr + dataOffset)) S Q := by
  have hinside : S.Inside (b.addr + 24) (bytesOf 4 1).length :=
    h.inside_store (by simp) (by rw [length_bytesOf]; omega)
  have hfreed := h.freed
  unfold mmFree
  rw [if_neg (by unfold dataOffset; omega), Nat.add_sub_cancel]
  unfold setFree
  rw [returns_storeBytes hinside]
  change Returns _ (S.freed b) Q
  rw [returns_getSize hfreed (b := ⟨b.addr, b.size, true⟩) (by simp)]
  obtain ⟨m', hrun, htidied⟩ := memset_tidied hfreed rfl
  refine hrun.seq ?_
  rintro _ _ rfl
  rw [returns_bind_of_run (run_turnsOf _)]
  exact hloops m' htidied

/-- The loops of `mm_free` up to the last. -/
theorem mergeLoops_tidied (h : Shape S (pre ++ b :: post)) (hb : b.free = true)
    {Q : Unit → MmHeap → Prop}
    (hclear : ∀ m' bs', Tidied S (pre ++ b :: post) m' bs' →
      Returns (clearLoop (S.brk + 1) S.listHead) { S with mem := m' } Q) :
    Returns (do
      absorbLoop b.addr (S.brk + 1)
      let S' ← get
      mergeLoop (S.brk + 1) S'.listHead
      clearLoop (S.brk + 1) S'.listHead) S Q := by
  have hlength := h.length_le
  rw [List.length_append, List.length_cons] at hlength
  have habsorb : Tidies (absorbLoop b.addr (S.brk + 1)) S _ := absorbLoop_tidies h hb (by omega)
  refine Returns.seq habsorb ?_
  rintro _ _ ⟨m₁, bs₁, rfl, htidied₁⟩
  rw [returns_get_bind]
  have hhead : S.listHead = headOf bs₁ := htidied₁.shape.chain.head
  have hmerge : Tidies (mergeLoop (S.brk + 1) (headOf bs₁)) _ ([] ++ bs₁) :=
    mergeLoop_tidies htidied₁.shape (Nat.lt_succ_of_le htidied₁.shape.length_le)
  rw [← hhead] at hmerge
  refine Returns.seq hmerge ?_
  rintro _ _ ⟨m₂, bs₂, rfl, htidied₂⟩
  exact hclear m₂ bs₂ (htidied₁.trans htidied₂)

/-- **`mm_free`**: the block leaves those in use, and the others are left as they are. -/
theorem mmFree_returns (h : Shape S (pre ++ b :: post)) :
    Returns (mmFree (b.addr + dataOffset)) S fun _ S' => ∃ m' bs', S' = { S with mem := m' } ∧
      Shape S' bs' ∧ used bs' = used (pre ++ post) ∧ ∀ d ∈ used (pre ++ post), d.Same S.mem m' := by
  refine mmFree_of_loops h fun m₁ htidied₁ => ?_
  refine mergeLoops_tidied htidied₁.shape rfl fun m₂ bs₂ htidied₂ => ?_
  have hclear : Tidies (clearLoop (S.brk + 1) (headOf bs₂)) _ ([] ++ bs₂) :=
    clearLoop_tidies htidied₂.shape (Nat.lt_succ_of_le htidied₂.shape.length_le)
  rw [← show S.listHead = headOf bs₂ from htidied₂.shape.chain.head] at hclear
  refine Returns.mono hclear ?_
  rintro _ _ ⟨m₃, bs₃, rfl, htidied₃⟩
  have hall := (htidied₁.trans htidied₂).trans htidied₃
  have hused : used (pre ++ ⟨b.addr, b.size, true⟩ :: post) = used (pre ++ post) := by
    rw [used_append, used_cons_free rfl, used_append]
  refine ⟨m₃, bs₃, rfl, hall.shape, hall.inUse.trans hused, fun d hd => ?_⟩
  have hsame : d.Same S.mem (S.freed b).mem :=
    h.same_store (mem_used.1 hd).1 (by rw [length_bytesOf]; omega)
  exact hsame.trans (hall.same d (hused ▸ hd))

end Shapes

end HwMemory
end CS162

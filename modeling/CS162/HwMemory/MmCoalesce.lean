/-
# Free blocks do not stay next to each other

The list of blocks as records of a pointer, a size and a flag.  `Listed S rs` says that the heap's
list has the records `rs`; on them `mm_malloc` is `allot` and `mm_free` is `released`
(`mmMalloc_allots`, `mmFree_releases`), by the loops' inductions.

In a run of calls on live blocks the list has no two free neighbours and every live block once, and
every call returns (`mmList_coalesced`).
-/

import Mathlib.Data.List.Perm.Subperm
import CS162.Basis.Coalescing
import CS162.Basis.Runs
import CS162.Basis.Trails
import CS162.HwMemory.MmList

namespace CS162
namespace HwMemory
namespace MmList

open CS162.Basis

/-- A block on the list. -/
structure Record where
  ptr : ℕ
  size : UInt64
  free : Bool

/-- A record takes another in. -/
def Record.join (r c : Record) : Record := ⟨r.ptr, r.size + c.size, r.free⟩

/-- The record's block is in the heap. -/
structure Record.Stored (r : Record) (S : Heap) : Prop where
  has : S.Has r.ptr
  size : (S.block r.ptr).size = r.size
  free : (S.block r.ptr).free = r.free

def Heap.next (S : Heap) (p : ℕ) : ℕ := (S.block p).next

/-- The list from a pointer on. -/
structure ListFrom (S : Heap) (a : ℕ) (rs : List Record) : Prop where
  trail : Trail S.next 0 a (rs.map Record.ptr)
  stored : ∀ r ∈ rs, r.Stored S

/-- **The heap's list.** -/
def Listed (S : Heap) (rs : List Record) : Prop := ListFrom S S.listHead rs

/-- The pointer to a list. -/
def headOf (rs : List Record) : ℕ := (rs.map Record.ptr).headD 0

/-- The first free block that is large enough is taken, and a new block is appended otherwise. -/
def allot (size : UInt64) (new split : ℕ) : List Record → ℕ × List Record
  | [] => (new, [⟨new, size, false⟩])
  | r :: rs =>
    if r.free = true ∧ size ≤ r.size then
      if r.size ≤ size + headerSize then (r.ptr, ⟨r.ptr, r.size, false⟩ :: rs)
      else (r.ptr, ⟨r.ptr, size, false⟩ :: ⟨split, r.size - size - headerSize, true⟩ :: rs)
    else
      let rest := allot size new split rs
      (rest.1, r :: rest.2)

/-- The record behind `pre` becomes free. -/
def released (pre : List Record) (r : Record) (post : List Record) : List Record :=
  merged Record.free Record.join
    (pre ++ absorbed Record.free Record.join ⟨r.ptr, r.size, true⟩ post)

@[simp] theorem headOf_nil : headOf [] = 0 := rfl

@[simp] theorem headOf_cons {r : Record} {rs : List Record} : headOf (r :: rs) = r.ptr := rfl

variable {S S' : Heap} {α : Type} {Q : α → Heap → Prop} {a p q new split : ℕ} {b : BlockM}
  {size : UInt64} {r c d r' : Record} {rs pre post old : List Record}

/-! ### Blocks of the heap -/

@[simp] theorem put_made : (S.put p b).made = S.made := rfl

@[simp] theorem put_listHead : (S.put p b).listHead = S.listHead := rfl

@[simp] theorem put_has : (S.put p b).Has q ↔ S.Has q := Iff.rfl

@[simp] theorem put_block_self : (S.put p b).block p = b := if_pos rfl

@[simp] theorem put_put {b' : BlockM} : (S.put p b).put p b' = S.put p b' := by
  unfold Heap.put
  congr 1
  funext q
  split_ifs with h
  · rfl
  · exact if_neg h

theorem put_block_of_ne (h : q ≠ p) : (S.put p b).block q = S.block q := if_neg h

theorem returns_getBlock {f : BlockM → OnHeap α} (h : S.Has p) :
    Returns (getBlock p >>= f) S Q ↔ Returns (f (S.block p)) S Q := by
  refine returns_bind_of_run ?_
  unfold getBlock
  rw [run_bind_of_run (a := S) (t := S) rfl, if_pos h]
  rfl

theorem run_setBlock {change : BlockM → BlockM} (h : S.Has p) :
    (setBlock p change).run S = some ((), S.put p (change (S.block p))) := by
  unfold setBlock
  rw [run_bind_of_run (a := S) (t := S) rfl, if_pos h]
  rfl

theorem returns_setSize {f : Unit → OnHeap α} (h : S.Has p) :
    Returns (setSize p size >>= f) S Q ↔
      Returns (f ()) (S.put p { S.block p with size := size }) Q :=
  returns_bind_of_run (run_setBlock h)

theorem returns_setNext {f : Unit → OnHeap α} (h : S.Has p) :
    Returns (setNext p q >>= f) S Q ↔ Returns (f ()) (S.put p { S.block p with next := q }) Q :=
  returns_bind_of_run (run_setBlock h)

theorem returns_setFree {free : Bool} {f : Unit → OnHeap α} (h : S.Has p) :
    Returns (setFree p free >>= f) S Q ↔
      Returns (f ()) (S.put p { S.block p with free := free }) Q :=
  returns_bind_of_run (run_setBlock h)

theorem returns_newBlock {f : ℕ → OnHeap α} :
    Returns (newBlock >>= f) S Q ↔ Returns (f (S.made + 1)) S.grown Q :=
  returns_bind_of_run rfl

/-! ### The list in the heap -/

theorem ListFrom.head (h : ListFrom S a rs) : a = headOf rs := h.trail.head

theorem ListFrom.nil : ListFrom S 0 [] := ⟨rfl, nofun⟩

theorem ListFrom.cons (hr : r.Stored S) (h : ListFrom S (S.next r.ptr) rs) :
    ListFrom S r.ptr (r :: rs) :=
  ⟨⟨rfl, Nat.ne_of_gt hr.has.1, h.trail⟩, List.forall_mem_cons.2 ⟨hr, h.stored⟩⟩

theorem ListFrom.behind (h : ListFrom S a (pre ++ r :: post)) : ListFrom S (S.next r.ptr) post where
  trail := by
    have htrail := h.trail
    rw [List.map_append] at htrail
    exact htrail.drop.2.2
  stored d hd := h.stored d (List.mem_append_right pre (List.mem_cons_of_mem r hd))

theorem ListFrom.next (h : ListFrom S a (pre ++ r :: post)) :
    (S.block r.ptr).next = headOf post :=
  h.behind.head

theorem ListFrom.stored_of (h : ListFrom S a (pre ++ r :: post)) : r.Stored S :=
  h.stored r (List.mem_append_right pre List.mem_cons_self)

/-- The other records have other pointers. -/
theorem ListFrom.ne (h : ListFrom S a (pre ++ r :: post)) (hd : d ∈ pre ++ post) :
    d.ptr ≠ r.ptr := by
  have hnodup := h.trail.nodup
  rw [List.map_append, List.map_cons, List.nodup_middle, List.nodup_cons] at hnodup
  rintro heq
  refine hnodup.1 ?_
  rw [← heq, ← List.map_append]
  exact List.mem_map_of_mem hd

/-- **The list depends on its blocks alone.** -/
theorem ListFrom.congr (h : ListFrom S a rs) (hmade : S.made ≤ S'.made)
    (hsame : ∀ r ∈ rs, S'.block r.ptr = S.block r.ptr) : ListFrom S' a rs where
  trail := by
    refine h.trail.congr fun p hp => ?_
    obtain ⟨r, hr, rfl⟩ := List.mem_map.1 hp
    exact congrArg BlockM.next (hsame r hr)
  stored r hr := by
    obtain ⟨hhas, hsize, hfree⟩ := h.stored r hr
    refine ⟨⟨hhas.1, Nat.le_trans hhas.2 hmade⟩, ?_, ?_⟩
    · rw [hsame r hr, hsize]
    · rw [hsame r hr, hfree]

/-- **A block changes**, with what is behind it. -/
theorem ListFrom.change (h : ListFrom S a (pre ++ r :: old)) (hmade : S.made ≤ S'.made)
    (hsame : ∀ d ∈ pre, S'.block d.ptr = S.block d.ptr) (hptr : r'.ptr = r.ptr) (hr : r'.Stored S')
    (hpost : ListFrom S' (S'.next r.ptr) post) : ListFrom S' a (pre ++ r' :: post) where
  trail := by
    have htrail := h.trail
    rw [List.map_append] at htrail ⊢
    refine htrail.replace (fun p hp => ?_) ?_
    · obtain ⟨d, hd, rfl⟩ := List.mem_map.1 hp
      exact congrArg BlockM.next (hsame d hd)
    · rw [← hptr] at hpost
      have hcons := (ListFrom.cons hr hpost).trail
      rwa [hptr] at hcons
  stored d hd := by
    rcases List.mem_append.1 hd with hd | hd
    · obtain ⟨hhas, hsize, hfree⟩ := h.stored d (List.mem_append_left _ hd)
      refine ⟨⟨hhas.1, Nat.le_trans hhas.2 hmade⟩, ?_, ?_⟩
      · rw [hsame d hd, hsize]
      · rw [hsame d hd, hfree]
    · rcases List.mem_cons.1 hd with rfl | hd
      · exact hr
      · exact hpost.stored d hd

/-- There are no more blocks on the list than pointers. -/
theorem ListFrom.length_le (h : ListFrom S a rs) : rs.length ≤ S.made := by
  have hsub : rs.map Record.ptr ⊆ List.range' 1 S.made := by
    intro p hp
    obtain ⟨r, hr, rfl⟩ := List.mem_map.1 hp
    have hhas := (h.stored r hr).has
    exact List.mem_range'_1.2 ⟨hhas.1, by have := hhas.2; omega⟩
  have hle := (List.subperm_of_subset h.trail.nodup hsub).length_le
  rwa [List.length_map, List.length_range'] at hle

theorem ListFrom.ptr_ne_zero (h : ListFrom S a (pre ++ r :: post)) : r.ptr ≠ 0 :=
  Nat.ne_of_gt h.stored_of.has.1

/-- **A block's flag changes.** -/
theorem ListFrom.flagged (h : ListFrom S a (pre ++ r :: post)) (free : Bool) :
    ListFrom (S.put r.ptr { S.block r.ptr with free := free }) a
      (pre ++ ⟨r.ptr, r.size, free⟩ :: post) := by
  have hr := h.stored_of
  refine h.change (Nat.le_refl _) (fun d hd => put_block_of_ne (h.ne (by simp [hd]))) rfl
    ⟨hr.has, ?_, ?_⟩ ?_
  · rw [put_block_self]
    exact hr.size
  · rw [put_block_self]
  · unfold Heap.next
    rw [put_block_self]
    exact h.behind.congr (Nat.le_refl _) fun d hd => put_block_of_ne (h.ne (by simp [hd]))

/-- **A block takes the one behind it in.** -/
theorem absorb_joins (h : ListFrom S a (pre ++ r :: c :: post)) :
    Returns (absorb r.ptr c.ptr) S fun _ S' =>
      ListFrom S' a (pre ++ r.join c :: post) ∧ S'.made = S.made ∧ S'.listHead = S.listHead := by
  have hr := h.stored_of
  have hsplit : pre ++ r :: c :: post = (pre ++ [r]) ++ c :: post := by simp
  have hc : ListFrom S a ((pre ++ [r]) ++ c :: post) := hsplit ▸ h
  unfold absorb
  rw [returns_getBlock hr.has, returns_getBlock hc.stored_of.has, returns_setSize hr.has]
  refine ⟨(), _, run_setBlock (put_has.2 hr.has), ?_, rfl, rfl⟩
  rw [put_block_self]
  refine h.change (Nat.le_refl _) (fun d hd => ?_) rfl ⟨hr.has, ?_, ?_⟩ ?_
  · have hne : d.ptr ≠ r.ptr := h.ne (List.mem_append_left _ hd)
    rw [put_block_of_ne hne, put_block_of_ne hne]
  · change ((Heap.put _ r.ptr _).block r.ptr).size = _
    rw [put_block_self]
    dsimp only
    rw [hr.size, hc.stored_of.size]
    rfl
  · change ((Heap.put _ r.ptr _).block r.ptr).free = _
    rw [put_block_self]
    exact hr.free
  · unfold Heap.next
    rw [put_block_self]
    refine hc.behind.congr (Nat.le_refl _) fun d hd => ?_
    have hne : d.ptr ≠ r.ptr := h.ne (List.mem_append_right _ (List.mem_cons_of_mem c hd))
    rw [put_block_of_ne hne, put_block_of_ne hne]

/-! ### `mm_free` -/

/-- Only the list changes. -/
def Relisted (S : Heap) (a : ℕ) (rs : List Record) (S' : Heap) : Prop :=
  ListFrom S' a rs ∧ S'.made = S.made ∧ S'.listHead = S.listHead

theorem Relisted.trans {S'' : Heap} {rs' : List Record} (h : Relisted S a rs S')
    (h' : Relisted S' a rs' S'') : Relisted S a rs' S'' :=
  ⟨h'.1, h'.2.1.trans h.2.1, h'.2.2.trans h.2.2⟩

/-- **The first loop**, by induction on the blocks behind the freed one. -/
theorem absorbLoop_absorbs {turns : ℕ} (h : ListFrom S a (pre ++ r :: post))
    (hturns : post.length < turns) : Returns (absorbLoop r.ptr turns) S fun _ =>
      Relisted S a (pre ++ absorbed Record.free Record.join r post) := by
  induction post generalizing S r turns with
  | nil =>
    obtain _ | turns := turns
    · cases hturns
    unfold absorbLoop
    rw [returns_getBlock h.stored_of.has, if_pos (show (S.block r.ptr).next = 0 from h.next)]
    exact returns_pure.2 ⟨h, rfl, rfl⟩
  | cons c post ih =>
    obtain _ | turns := turns
    · cases hturns
    have hc : ListFrom S a ((pre ++ [r]) ++ c :: post) := by simpa using h
    have hnext : (S.block r.ptr).next = c.ptr := h.next
    unfold absorbLoop
    rw [returns_getBlock h.stored_of.has, hnext, if_neg hc.ptr_ne_zero,
      returns_getBlock hc.stored_of.has, hc.stored_of.free]
    unfold absorbed
    by_cases hfree : c.free = true
    · rw [if_pos hfree, if_pos hfree]
      refine (absorb_joins h).seq ?_
      rintro _ S₁ hjoined
      have hloop := ih hjoined.1 (Nat.lt_of_succ_lt_succ hturns)
      exact hloop.mono fun _ _ hdone => Relisted.trans hjoined hdone
    · rw [if_neg hfree, if_neg hfree]
      exact returns_pure.2 ⟨h, rfl, rfl⟩

/-- A turn goes on with the next block. -/
theorem returns_goOn {loop : ℕ → OnHeap α} (h : ListFrom S a (pre ++ r :: post)) :
    Returns (getBlock r.ptr >>= fun b => loop b.next) S Q ↔ Returns (loop (headOf post)) S Q := by
  rw [returns_getBlock h.stored_of.has, h.next]

/-- **The second loop**, by induction on its turns. -/
theorem mergeLoop_merges {turns : ℕ} (h : ListFrom S a (pre ++ rs)) (hturns : rs.length < turns) :
    Returns (mergeLoop turns (headOf rs)) S fun _ =>
      Relisted S a (pre ++ merged Record.free Record.join rs) := by
  induction turns generalizing S pre rs with
  | zero => cases hturns
  | succ turns ih =>
    unfold mergeLoop
    cases rs with
    | nil => exact returns_pure.2 ⟨h, rfl, rfl⟩
    | cons r post =>
      have hr := h.stored_of
      have hgoOn : ∀ {S₁ r₁ post₁}, ListFrom S₁ a (pre ++ r₁ :: post₁) → post₁.length < turns →
          Returns (getBlock r₁.ptr >>= fun b => mergeLoop turns b.next) S₁ fun _ =>
            Relisted S₁ a (pre ++ r₁ :: merged Record.free Record.join post₁) := by
        intro S₁ r₁ post₁ h₁ hlt
        have hrest : ListFrom S₁ a ((pre ++ [r₁]) ++ post₁) := by simpa using h₁
        rw [returns_goOn h₁]
        simpa using ih hrest hlt
      rw [headOf_cons, if_neg h.ptr_ne_zero, returns_getBlock hr.has, hr.free, h.next]
      cases post with
      | nil =>
        rw [if_neg (fun h => h.2 rfl)]
        exact hgoOn h (Nat.lt_of_succ_lt_succ hturns)
      | cons c post =>
        have hc : ListFrom S a ((pre ++ [r]) ++ c :: post) := by simpa using h
        by_cases hfree : r.free = true
        · rw [headOf_cons, if_pos ⟨hfree, hc.ptr_ne_zero⟩, returns_getBlock hc.stored_of.has,
            hc.stored_of.free]
          by_cases hcfree : c.free = true
          · rw [merged, if_pos hcfree, if_pos (by rw [hfree, hcfree]; rfl)]
            refine (absorb_joins h).seq ?_
            rintro _ S₁ hjoined
            have hlt : post.length < turns := Nat.lt_of_succ_lt (Nat.lt_of_succ_lt_succ hturns)
            exact (hgoOn hjoined.1 hlt).mono fun _ _ hdone => Relisted.trans hjoined hdone
          · rw [merged, if_neg hcfree, if_neg (by simp [hcfree])]
            exact hgoOn h (Nat.lt_of_succ_lt_succ hturns)
        · rw [merged, if_neg (fun h => hfree h.1), if_neg (by simp [hfree])]
          exact hgoOn h (Nat.lt_of_succ_lt_succ hturns)

/-- **The third loop** returns. -/
theorem clearLoop_returns {turns : ℕ} (h : ListFrom S a (pre ++ rs))
    (hturns : rs.length < turns) :
    Returns (clearLoop turns (headOf rs)) S fun _ S' => S' = S := by
  induction rs generalizing pre turns with
  | nil =>
    obtain _ | turns := turns
    · cases hturns
    exact returns_pure.2 rfl
  | cons r rs ih =>
    obtain _ | turns := turns
    · cases hturns
    unfold clearLoop
    have hrest : ListFrom S a ((pre ++ [r]) ++ rs) := by simpa using h
    rw [headOf_cons, if_neg h.ptr_ne_zero, returns_goOn h]
    exact ih hrest (Nat.lt_of_succ_lt_succ hturns)

theorem mergeLoop_lists (h : Listed S rs) :
    Returns (mergeLoop (S.made + 1) S.listHead) S fun _ S' =>
      Listed S' (merged Record.free Record.join rs) ∧ S'.made = S.made := by
  have hlist : ListFrom S S.listHead ([] ++ rs) := h
  have hmerge := mergeLoop_merges hlist (Nat.lt_succ_of_le hlist.length_le)
  rw [← ListFrom.head h] at hmerge
  refine hmerge.mono ?_
  rintro _ S' ⟨hlist, hmade, hhead⟩
  refine ⟨?_, hmade⟩
  unfold Listed
  rw [hhead]
  exact hlist

theorem clearLoop_lists (h : Listed S rs) :
    Returns (clearLoop (S.made + 1) S.listHead) S fun _ S' => S' = S := by
  have hlist : ListFrom S S.listHead ([] ++ rs) := h
  have hclear := clearLoop_returns hlist (Nat.lt_succ_of_le hlist.length_le)
  rwa [← ListFrom.head h] at hclear

/-- **`mm_free`** of a block on the list. -/
theorem mmFree_releases (h : Listed S (pre ++ r :: post)) :
    Returns (mmFree r.ptr) S fun _ S' => Listed S' (released pre r post) := by
  have hlength := ListFrom.length_le h
  rw [List.length_append, List.length_cons] at hlength
  have hturns : turnsOf.run (S.put r.ptr { S.block r.ptr with free := true }) =
      some (S.made + 1, S.put r.ptr { S.block r.ptr with free := true }) := rfl
  have hturn : post.length < S.made + 1 := by omega
  have habsorb := absorbLoop_absorbs (ListFrom.flagged h true) hturn
  unfold mmFree
  rw [if_neg (ListFrom.ptr_ne_zero h), returns_setFree h.stored_of.has,
    returns_bind_of_run hturns]
  refine habsorb.seq ?_
  rintro _ S₁ ⟨h₁, hmade₁, hhead₁⟩
  have hlist₁ : Listed S₁ (pre ++ absorbed Record.free Record.join ⟨r.ptr, r.size, true⟩ post) := by
    unfold Listed
    rw [hhead₁]
    exact h₁
  rw [returns_get_bind, ← show S₁.made = S.made from hmade₁]
  refine (mergeLoop_lists hlist₁).seq ?_
  rintro _ S₂ ⟨hlist₂, hmade₂⟩
  rw [returns_get_bind, ← hmade₂]
  refine (clearLoop_lists hlist₂).mono ?_
  rintro _ _ rfl
  exact hlist₂

/-! ### `mm_malloc` -/

/-- A block takes the record's fields. -/
theorem stored_put (h : S.Has r.ptr) (hsize : b.size = r.size) (hfree : b.free = r.free) :
    r.Stored (S.put r.ptr b) := by
  refine ⟨h, ?_, ?_⟩
  · rw [put_block_self, hsize]
  · rw [put_block_self, hfree]

@[simp] theorem grown_made : S.grown.made = S.made + 1 := rfl

@[simp] theorem grown_listHead : S.grown.listHead = S.listHead := rfl

theorem grown_block_of_le (h : p ≤ S.made) : S.grown.block p = S.block p :=
  if_neg (Nat.ne_of_lt (Nat.lt_succ_of_le h))

theorem has_grown : S.grown.Has (S.made + 1) := ⟨Nat.succ_pos _, Nat.le_refl _⟩

theorem Heap.Has.grown (h : S.Has p) : S.grown.Has p := ⟨h.1, Nat.le_succ_of_le h.2⟩

/-- **A free block is taken**, whole or split. -/
theorem take_takes (h : ListFrom S a (pre ++ r :: post))
    (hfits : r.free = true ∧ size ≤ r.size) (new : ℕ) :
    Returns (take size r.ptr) S fun q S' =>
      q = r.ptr ∧ ListFrom S' a (pre ++ (allot size new (S.made + 1) (r :: post)).2) ∧
        S'.listHead = S.listHead := by
  have hr := h.stored_of
  unfold take
  rw [returns_getBlock hr.has, hr.size, allot, if_pos hfits]
  by_cases hwhole : r.size ≤ size + headerSize
  · rw [if_pos hwhole, if_pos hwhole, returns_setFree hr.has]
    exact returns_pure.2 ⟨rfl, hr.size ▸ h.flagged false, rfl⟩
  · have hnew : r.ptr ≠ S.made + 1 := Nat.ne_of_lt (Nat.lt_succ_of_le hr.has.2)
    have hgrown := hr.has.grown
    rw [if_neg hwhole, if_neg hwhole, returns_newBlock]
    simp only [returns_setSize, returns_setFree, returns_setNext, put_has, has_grown, hgrown,
      returns_pure, put_block_self, put_put]
    refine ⟨trivial, ?_, rfl⟩
    have hother : ∀ d ∈ pre ++ post, ((S.grown.put (S.made + 1) ⟨r.size - size - headerSize,
        (S.block r.ptr).next, true⟩).put r.ptr ⟨size, S.made + 1, false⟩).block d.ptr =
          S.block d.ptr := by
      intro d hd
      have hmem : d ∈ pre ++ r :: post := by
        rcases List.mem_append.1 hd with hd | hd
        · exact List.mem_append_left _ hd
        · exact List.mem_append_right _ (List.mem_cons_of_mem r hd)
      have hmade : d.ptr ≤ S.made := (h.stored d hmem).has.2
      rw [put_block_of_ne (h.ne hd), put_block_of_ne (Nat.ne_of_lt (Nat.lt_succ_of_le hmade)),
        grown_block_of_le hmade]
    refine h.change (Nat.le_succ _) (fun d hd => hother d (List.mem_append_left _ hd)) rfl
      (stored_put hgrown rfl rfl) ?_
    rw [Heap.next, put_block_self]
    refine ListFrom.cons (r := ⟨S.made + 1, r.size - size - headerSize, true⟩)
      ⟨has_grown, ?_, ?_⟩ ?_
    · rw [put_block_of_ne hnew.symm, put_block_self]
    · rw [put_block_of_ne hnew.symm, put_block_self]
    · rw [Heap.next, put_block_of_ne hnew.symm, put_block_self]
      exact h.behind.congr (Nat.le_succ _) fun d hd => hother d (List.mem_append_right _ hd)

/-- **The loop of `mm_malloc`**, by induction on the blocks to come. -/
theorem mallocLoop_allots {turns prev : ℕ} (h : ListFrom S a (pre ++ rs))
    (hturns : rs.length < turns) (hprev : ∀ d ∈ pre.getLast?, prev = d.ptr)
    (hsome : pre ++ rs ≠ []) (hnew : S.Has new) (hsize : (S.block new).size = size)
    (hoff : ∀ d ∈ pre ++ rs, d.ptr ≠ new) :
    Returns (mallocLoop size new turns (headOf rs) prev) S fun p S' =>
      p = (allot size new (S.made + 1) rs).1 ∧
        ListFrom S' a (pre ++ (allot size new (S.made + 1) rs).2) ∧ S'.listHead = S.listHead := by
  induction rs generalizing pre turns prev with
  | nil =>
    obtain _ | turns := turns
    · cases hturns
    rw [List.append_nil] at h hsome hoff
    obtain ⟨pre, l, rfl⟩ := List.eq_nil_or_concat' pre |>.resolve_left hsome
    have hl : prev = l.ptr := hprev l (by simp)
    have hne : l.ptr ≠ new := hoff l (by simp)
    subst hl
    have hhas := h.stored_of.has
    unfold mallocLoop
    rw [headOf_nil, if_pos rfl]
    simp only [returns_setNext, returns_setFree, put_has, hhas, hnew, returns_pure,
      put_block_of_ne hne.symm, put_block_self, put_put]
    refine ⟨rfl, ?_, rfl⟩
    rw [List.append_assoc]
    refine h.change (Nat.le_refl _) (fun d hd => ?_) rfl ⟨hhas, ?_, ?_⟩ ?_
    · have hdl : d.ptr ≠ l.ptr := h.ne (List.mem_append_left _ hd)
      rw [put_block_of_ne (hoff d (List.mem_append_left _ hd)), put_block_of_ne hdl]
    · rw [put_block_of_ne hne, put_block_self]
      exact h.stored_of.size
    · rw [put_block_of_ne hne, put_block_self]
      exact h.stored_of.free
    · rw [Heap.next, put_block_of_ne hne, put_block_self]
      refine ListFrom.cons (r := ⟨new, size, false⟩) (stored_put hnew hsize rfl) ?_
      rw [Heap.next, put_block_self]
      exact .nil
  | cons r rs ih =>
    obtain _ | turns := turns
    · cases hturns
    have hr := h.stored_of
    unfold mallocLoop
    rw [headOf_cons, if_neg h.ptr_ne_zero, returns_getBlock hr.has, hr.free, hr.size, h.next]
    by_cases hfits : r.free = true ∧ size ≤ r.size
    · rw [if_pos hfits]
      refine (take_takes h hfits new).mono ?_
      rintro q S' ⟨rfl, hlist, hhead⟩
      refine ⟨?_, hlist, hhead⟩
      rw [allot, if_pos hfits]
      split_ifs <;> rfl
    · have hrest : ListFrom S a ((pre ++ [r]) ++ rs) := by simpa using h
      have hlast : ∀ d ∈ (pre ++ [r]).getLast?, r.ptr = d.ptr := by simp
      have hloop := ih hrest (Nat.lt_of_succ_lt_succ hturns) hlast (by simp) (by simpa using hoff)
      rw [if_neg hfits, allot, if_neg hfits]
      simpa using hloop

/-- The list is looked at with the new block at hand. -/
theorem place_allots (h : Listed S rs) (hnew : S.Has new) (hsize : (S.block new).size = size)
    (hnext : (S.block new).next = 0) (hoff : ∀ d ∈ rs, d.ptr ≠ new) :
    Returns (place size new) S fun p S' =>
      p = (allot size new (S.made + 1) rs).1 ∧ Listed S' (allot size new (S.made + 1) rs).2 := by
  unfold place
  rw [returns_get_bind]
  cases rs with
  | nil =>
    rw [if_pos (show S.listHead = 0 from ListFrom.head h), returns_set_bind]
    have hhas : Heap.Has { S with listHead := new } new := hnew
    rw [returns_setFree hhas, returns_pure]
    refine ⟨rfl, ListFrom.cons (r := ⟨new, size, false⟩) (stored_put hhas hsize rfl) ?_⟩
    rw [Heap.next, put_block_self]
    exact hnext ▸ .nil
  | cons r rs =>
    have hlist : ListFrom S S.listHead ([] ++ r :: rs) := h
    have hhead : S.listHead = r.ptr := hlist.head
    have hpos : S.listHead ≠ 0 := hhead ▸ hlist.ptr_ne_zero
    have hprev : ∀ d ∈ ([] : List Record).getLast?, 0 = d.ptr := fun d hd => nomatch hd
    have hloop := mallocLoop_allots hlist (Nat.lt_succ_of_le hlist.length_le) hprev
      (List.cons_ne_nil r rs) hnew hsize hoff
    rw [← ListFrom.head h] at hloop
    rw [if_neg hpos, returns_bind_of_run (show turnsOf.run S = some (S.made + 1, S) from rfl)]
    refine hloop.mono ?_
    rintro p S' ⟨hp, hlist, hhead'⟩
    refine ⟨hp, ?_⟩
    unfold Listed
    rw [hhead']
    exact hlist

/-- **`mm_malloc`** of some bytes. -/
theorem mmMalloc_allots (h : Listed S rs) (hsize : size ≠ 0) :
    Returns (mmMalloc size) S fun p S' => p = (allot size (S.made + 1) (S.made + 2) rs).1 ∧
      Listed S' (allot size (S.made + 1) (S.made + 2) rs).2 := by
  have hoff : ∀ d ∈ rs, d.ptr ≠ S.made + 1 := fun d hd =>
    Nat.ne_of_lt (Nat.lt_succ_of_le (h.stored d hd).has.2)
  unfold mmMalloc
  rw [if_neg hsize, returns_newBlock]
  simp only [returns_setSize, returns_setFree, put_has, has_grown, put_block_self, put_put]
  have hlist : Listed
      (S.grown.put (S.made + 1) ⟨size, (S.grown.block (S.made + 1)).next, true⟩) rs := by
    refine ListFrom.congr h (Nat.le_succ _) fun d hd => ?_
    rw [put_block_of_ne (hoff d hd), grown_block_of_le (h.stored d hd).has.2]
  refine place_allots hlist has_grown ?_ ?_ hoff
  · rw [put_block_self]
  · rw [put_block_self]
    exact congrArg BlockM.next (if_pos rfl)

/-! ### The records -/

/-- The pointers to the blocks in use. -/
def inUse (rs : List Record) : List ℕ := (rs.filter fun r => !r.free).map Record.ptr

theorem inUse_append (rs rs' : List Record) : inUse (rs ++ rs') = inUse rs ++ inUse rs' := by
  unfold inUse
  rw [List.filter_append, List.map_append]

theorem inUse_cons_free (hr : r.free = true) : inUse (r :: rs) = inUse rs := by
  unfold inUse
  rw [List.filter_cons_of_neg (by simp [hr])]

theorem inUse_cons_used (hr : r.free = false) : inUse (r :: rs) = r.ptr :: inUse rs := by
  unfold inUse
  rw [List.filter_cons_of_pos (by simp [hr]), List.map_cons]

theorem mem_inUse : p ∈ inUse rs ↔ ∃ r ∈ rs, r.free = false ∧ r.ptr = p := by
  unfold inUse
  simp only [List.mem_map, List.mem_filter, Bool.not_eq_true', and_assoc]

theorem inUse_sublist (rs : List Record) : (inUse rs).Sublist (rs.map Record.ptr) :=
  List.filter_sublist.map _

/-- The first block is free only if it was. -/
theorem head_allot (hc : c ∈ (allot size new split rs).2.head?) (hfree : c.free = true) :
    ∃ d ∈ rs.head?, d.free = true := by
  cases rs with
  | nil =>
    obtain rfl : (⟨new, size, false⟩ : Record) = c := Option.mem_some_iff.1 hc
    cases hfree
  | cons r rs =>
    refine ⟨r, rfl, ?_⟩
    by_cases hfits : r.free = true ∧ size ≤ r.size
    · exact hfits.1
    · rw [allot, if_neg hfits] at hc
      obtain rfl : r = c := Option.mem_some_iff.1 hc
      exact hfree

/-- `mm_malloc` makes no free neighbours: what is behind a split block is in use. -/
theorem spread_allot (h : Spread Record.free rs) :
    Spread Record.free (allot size new split rs).2 := by
  induction rs with
  | nil => exact .singleton _
  | cons r rs ih =>
    unfold allot
    by_cases hfits : r.free = true ∧ size ≤ r.size
    · rw [if_pos hfits]
      split_ifs
      · exact Spread.between (l := []) rfl .nil h.tail
      · refine Spread.between (l := []) rfl .nil (spread_cons.2 ⟨fun c hc hboth => ?_, h.tail⟩)
        exact (spread_cons.1 h).1 c hc ⟨hfits.1, hboth.2⟩
    · rw [if_neg hfits]
      refine spread_cons.2 ⟨fun c hc hboth => ?_, ih h.tail⟩
      obtain ⟨d, hd, hfree⟩ := head_allot hc hboth.2
      exact (spread_cons.1 h).1 d hd ⟨hboth.1, hfree⟩

/-- One more block is in use. -/
theorem inUse_allot (size : UInt64) (new split : ℕ) (rs : List Record) :
    (inUse (allot size new split rs).2).Perm ((allot size new split rs).1 :: inUse rs) := by
  induction rs with
  | nil => exact .refl _
  | cons r rs ih =>
    unfold allot
    by_cases hfits : r.free = true ∧ size ≤ r.size
    · rw [if_pos hfits, inUse_cons_free hfits.1]
      split_ifs
      · rw [inUse_cons_used rfl]
      · rw [inUse_cons_used rfl, inUse_cons_free rfl]
    · rw [if_neg hfits]
      cases hfree : r.free with
      | true =>
        rw [inUse_cons_free hfree, inUse_cons_free hfree]
        exact ih
      | false =>
        rw [inUse_cons_used hfree, inUse_cons_used hfree]
        exact (ih.cons r.ptr).trans (.swap ..)

theorem free_join (r c : Record) : (r.join c).free = r.free := rfl

/-- `mm_free` leaves no free neighbours. -/
theorem spread_released (h : Spread Record.free (pre ++ r :: post)) :
    Spread Record.free (released pre r post) :=
  Spread.merged_append free_join h.append_left (Spread.absorbed h.append_right.tail _)

/-- The block is not in use any more. -/
theorem inUse_released : inUse (released pre r post) = inUse (pre ++ post) := by
  unfold inUse released
  rw [filter_merged free_join, List.filter_append, filter_absorbed free_join rfl,
    ← List.filter_append]

/-! ### Runs -/

/-- The heap and the pointers that its users have. -/
structure Use where
  heap : Heap
  live : List ℕ

/-- Nothing has been allocated. -/
def Use.start : Use := ⟨⟨fun _ => ⟨0, 0, false⟩, 0, 0⟩, []⟩

inductive Call where
  | malloc (size : UInt64)
  | realloc (ptr : ℕ) (size : UInt64)
  | free (ptr : ℕ)

def Call.perform : Call → OnHeap ℕ
  | malloc size => mmMalloc size
  | realloc ptr size => mmRealloc ptr size
  | free ptr => do
    mmFree ptr
    return 0

/-- Pointers are null or live. -/
def Call.Enabled (U : Use) : Call → Prop
  | malloc _ => True
  | realloc ptr _ | free ptr => ptr = 0 ∨ ptr ∈ U.live

/-- The pointer that a call returned. -/
def given (res : ℕ) : List ℕ := if res = 0 then [] else [res]

/-- The live pointers after a call. -/
def Call.liveAfter (U : Use) (res : ℕ) : Call → List ℕ
  | malloc _ => given res ++ U.live
  | realloc ptr size =>
    -- `mm_realloc` that fails frees nothing, unless it was to free
    if res = 0 ∧ size ≠ 0 then U.live else given res ++ U.live.erase ptr
  | free ptr => U.live.erase ptr

/-- A step of a run. -/
def Step (U : Use) (c : Call) (U' : Use) : Prop :=
  c.Enabled U ∧ ∃ res H, c.perform.run U.heap = some (res, H) ∧ U' = ⟨H, c.liveAfter U res⟩

/-- **The list has no free neighbours**, and the blocks in use on it are the live ones. -/
structure Coalesced (U : Use) (rs : List Record) : Prop where
  listed : Listed U.heap rs
  spread : Spread Record.free rs
  live : (inUse rs).Perm U.live

variable {U U' : Use} {live : List ℕ}

theorem Coalesced.ptr_ne_zero (h : Coalesced U rs) (hp : p ∈ U.live) : p ≠ 0 := by
  obtain ⟨r, hr, -, rfl⟩ := mem_inUse.1 (h.live.mem_iff.2 hp)
  exact Nat.ne_of_gt (h.listed.stored r hr).has.1

theorem Coalesced.nodup (h : Coalesced U rs) : U.live.Nodup :=
  h.live.nodup_iff.1 (h.listed.trail.nodup.sublist (inUse_sublist rs))

/-- **Every live block is on the list once.** -/
theorem Coalesced.once (h : Coalesced U rs) (hp : p ∈ U.live) : (rs.map Record.ptr).count p = 1 :=
  List.count_eq_one_of_mem h.listed.trail.nodup
    ((inUse_sublist rs).subset (h.live.mem_iff.2 hp))

/-- What `mm_malloc` does to a heap. -/
theorem Coalesced.malloc (h : Coalesced U rs) (size : UInt64) :
    Returns (mmMalloc size) U.heap fun p H =>
      (p = 0 → size = 0) ∧ ∃ rs', Coalesced ⟨H, given p ++ U.live⟩ rs' := by
  by_cases hsize : size = 0
  · unfold mmMalloc
    rw [if_pos hsize]
    exact returns_pure.2 ⟨fun _ => hsize, rs, h⟩
  · refine (mmMalloc_allots h.listed hsize).mono ?_
    rintro p H ⟨rfl, hlist⟩
    have hcons := inUse_allot size (U.heap.made + 1) (U.heap.made + 2) rs
    have hpos : (allot size (U.heap.made + 1) (U.heap.made + 2) rs).1 ≠ 0 := by
      obtain ⟨r, hr, -, hptr⟩ := mem_inUse.1 (hcons.mem_iff.2 List.mem_cons_self)
      rw [← hptr]
      exact Nat.ne_of_gt (hlist.stored r hr).has.1
    refine ⟨fun hzero => absurd hzero hpos, _, hlist, spread_allot h.spread, ?_⟩
    rw [given, if_neg hpos]
    exact hcons.trans (h.live.cons _)

/-- What `mm_free` of a live block does. -/
theorem Coalesced.free (h : Coalesced U rs) (hp : p ∈ U.live) :
    Returns (mmFree p) U.heap fun _ H => ∃ rs', Coalesced ⟨H, U.live.erase p⟩ rs' := by
  obtain ⟨r, hr, hused, rfl⟩ := mem_inUse.1 (h.live.mem_iff.2 hp)
  obtain ⟨pre, post, rfl⟩ := List.append_of_mem hr
  refine (mmFree_releases h.listed).mono fun _ H hlist => ?_
  refine ⟨_, hlist, spread_released h.spread, ?_⟩
  have hlive := h.live
  rw [inUse_append, inUse_cons_used hused] at hlive
  have herase := ((List.perm_middle.symm.trans hlive).erase r.ptr)
  rw [List.erase_cons_head] at herase
  rw [inUse_released, inUse_append]
  exact herase

/-- `mm_realloc` does not fail. -/
theorem liveAfter_realloc {res : ℕ} (h : res = 0 → size = 0) :
    (Call.realloc p size).liveAfter U res = given res ++ U.live.erase p :=
  if_neg fun hfails => hfails.2 (h hfails.1)

/-- What `mm_realloc` of a live block does. -/
theorem Coalesced.realloc (h : Coalesced U rs) (hp : p ∈ U.live) (size : UInt64) :
    Returns (mmRealloc p size) U.heap fun res H =>
      ∃ rs', Coalesced ⟨H, (Call.realloc p size).liveAfter U res⟩ rs' := by
  have hpos := h.ptr_ne_zero hp
  obtain ⟨r, hr, hused, rfl⟩ := mem_inUse.1 (h.live.mem_iff.2 hp)
  obtain ⟨pre, post, rfl⟩ := List.append_of_mem hr
  have hstored := ListFrom.stored_of h.listed
  unfold mmRealloc
  rw [if_neg hpos]
  by_cases hsize : size = 0
  · rw [if_pos hsize]
    refine (h.free hp).seq ?_
    rintro _ H hfreed
    rw [returns_pure, liveAfter_realloc fun _ => hsize]
    exact hfreed
  · rw [if_neg hsize, returns_getBlock hstored.has, hstored.size]
    by_cases hfits : size ≤ r.size
    · rw [if_pos hfits, returns_pure, liveAfter_realloc fun hzero => absurd hzero hpos, given,
        if_neg hpos]
      exact ⟨_, h.listed, h.spread, h.live.trans (List.perm_cons_erase hp)⟩
    · rw [if_neg hfits]
      refine (h.malloc size).seq ?_
      rintro q H ⟨hzero, rs', hgiven⟩
      have hq : q ≠ 0 := fun heq => hsize (hzero heq)
      rw [given, if_neg hq] at hgiven
      have hne : q ≠ r.ptr := by
        rintro rfl
        exact (List.nodup_cons.1 hgiven.nodup).1 hp
      rw [if_neg hq]
      refine (hgiven.free (List.mem_cons_of_mem q hp)).seq ?_
      rintro _ H' ⟨rs'', hfreed⟩
      have herase : (q :: U.live).erase r.ptr = q :: U.live.erase r.ptr :=
        List.erase_cons_tail (by simpa using hne)
      rw [returns_pure, liveAfter_realloc hzero, given, if_neg hq]
      refine ⟨rs'', ?_⟩
      change Coalesced ⟨H', q :: U.live.erase r.ptr⟩ rs''
      rw [← herase]
      exact hfreed

/-- **A call of a run returns and keeps the list.** -/
theorem Call.keeps (h : Coalesced U rs) {c : Call} (hc : c.Enabled U) :
    Returns c.perform U.heap fun res H => ∃ rs', Coalesced ⟨H, c.liveAfter U res⟩ rs' := by
  have hnull : U.live.erase 0 = U.live := List.erase_of_not_mem fun hp => h.ptr_ne_zero hp rfl
  cases c with
  | malloc size => exact (h.malloc size).mono fun _ _ hdone => hdone.2
  | realloc ptr size =>
    rcases hc with rfl | hp
    · refine (h.malloc size).mono ?_
      rintro q H ⟨hzero, hdone⟩
      rw [liveAfter_realloc hzero, hnull]
      exact hdone
    · exact h.realloc hp size
  | free ptr =>
    rcases hc with rfl | hp
    · refine ⟨0, U.heap, rfl, rs, ?_⟩
      rw [Call.liveAfter, hnull]
      exact h
    · exact (h.free hp).seq fun _ _ hdone => returns_pure.2 hdone

/-- **Free blocks are joined at once.**  After any calls on live blocks, the list has no two free
neighbours and every live block once; every call that is then made returns. -/
theorem mmList_coalesced (h : Leads Step (fun _ _ => True) Use.start U) :
    (∃ rs, Listed U.heap rs ∧ Spread Record.free rs ∧ (inUse rs).Perm U.live ∧
      ∀ p ∈ U.live, (rs.map Record.ptr).count p = 1) ∧
    ∀ c : Call, c.Enabled U → Returns c.perform U.heap fun _ _ => True := by
  have hinv : ∃ rs, Coalesced U rs := by
    refine h.inv (I := fun U => ∃ rs, Coalesced U rs) ?_ ⟨[], .nil, .nil, .refl _⟩
    rintro U c U' ⟨rs, hU⟩ - ⟨hc, res, H, hrun, rfl⟩
    exact (Call.keeps hU hc).of_run hrun
  obtain ⟨rs, hrs⟩ := hinv
  refine ⟨⟨rs, hrs.listed, hrs.spread, hrs.live, fun p hp => hrs.once hp⟩, fun c hc => ?_⟩
  exact (Call.keeps hrs hc).mono fun _ _ _ => trivial

/-- Three blocks, of which the last two are freed. -/
def freedTwo : OnHeap (ℕ × ℕ × ℕ) := do
  let p ← mmMalloc 8
  let q ← mmMalloc 8
  let r ← mmMalloc 8
  mmFree 3
  mmFree 2
  return (p, q, r)

theorem run_freedTwo : (freedTwo.run Use.start.heap).map Prod.fst = some (1, 2, 3) := by
  decide +kernel

/-- The two freed blocks are one, behind the block in use. -/
theorem mmList_coalesced_freedTwo : ∃ U : Use, U.live = [1] ∧
    (∃ rs, Listed U.heap rs ∧ Spread Record.free rs ∧ (inUse rs).Perm U.live ∧
      ∀ p ∈ U.live, (rs.map Record.ptr).count p = 1) ∧
    ∀ c : Call, c.Enabled U → Returns c.perform U.heap fun _ _ => True := by
  obtain ⟨⟨ptrs, H⟩, hrun, hptrs⟩ := Option.map_eq_some_iff.1 run_freedTwo
  obtain ⟨p, H₁, hrun₁, hrun⟩ := run_bind_cases hrun
  obtain ⟨q, H₂, hrun₂, hrun⟩ := run_bind_cases hrun
  obtain ⟨r, H₃, hrun₃, hrun⟩ := run_bind_cases hrun
  obtain ⟨_, H₄, hrun₄, hrun⟩ := run_bind_cases hrun
  obtain ⟨_, H, hrun₅, hrun⟩ := run_bind_cases hrun
  cases hrun
  cases hptrs
  have hstep₁ : Step Use.start (.malloc 8) ⟨H₁, [1]⟩ := ⟨trivial, 1, H₁, hrun₁, rfl⟩
  have hstep₂ : Step ⟨H₁, [1]⟩ (.malloc 8) ⟨H₂, [2, 1]⟩ := ⟨trivial, 2, H₂, hrun₂, rfl⟩
  have hstep₃ : Step ⟨H₂, [2, 1]⟩ (.malloc 8) ⟨H₃, [3, 2, 1]⟩ := ⟨trivial, 3, H₃, hrun₃, rfl⟩
  have hstep₄ : Step ⟨H₃, [3, 2, 1]⟩ (.free 3) ⟨H₄, [2, 1]⟩ :=
    ⟨.inr List.mem_cons_self, 0, H₄, run_bind_of_run hrun₄, rfl⟩
  have hstep₅ : Step ⟨H₄, [2, 1]⟩ (.free 2) ⟨H, [1]⟩ :=
    ⟨.inr List.mem_cons_self, 0, H, run_bind_of_run hrun₅, rfl⟩
  have hleads : Leads Step (fun _ _ => True) Use.start ⟨H, [1]⟩ :=
    ((((Leads.next .refl trivial hstep₁).next trivial hstep₂).next trivial hstep₃).next trivial
      hstep₄).next trivial hstep₅
  exact ⟨⟨H, [1]⟩, rfl, mmList_coalesced hleads⟩

end MmList
end HwMemory
end CS162

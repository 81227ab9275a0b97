/-
# `allocate_blocks` on any index

`projects1-3/src/filesys/inode.c`, lines 309-408, and `free_map_allocate` of
`free-map.c`.

`allocate_blocks` goes through the entries for the data blocks in order and puts a
new block where it finds a `0`.  `Filling` says how far it is: the blocks below
`f` are there, those from `f` on are as they were, and `a` sectors were taken.
`allocateBlocksWith_fills` says where it ends: at as many new blocks as it was
asked for or at the end of the index; or, at the first request for a sector that
is not met, with failure.  In the doubly indirect part the blocks that were put
into the index block that is not finished are lost then (`Index.spill`).
-/

import CS162.Filesys.Index

namespace CS162
namespace Filesys

open CS162.Basis

/-- What is used of `bitmap_write` and of the memory it takes. -/
structure BitmapServes (bitmapWrite : Kernel Bool) (own : Set BlockSector)
    (inv : FsState → Prop) : Prop extends BitmapWrites bitmapWrite own inv where
  memory : ∀ {σ}, inv σ → σ.freeMapFile ≠ none → 0 < σ.freeMap.bitCnt →
    Returns bitmapWrite σ fun written σ' => written = σ.memory 0 ∧ σ'.memory = σ.shift.memory

/-- The real `bitmap_write`. -/
theorem bitmapServes (fm : Tree) (held : Option InodePtr) :
    BitmapServes (bitmapWrite held) fm.sectors (FreeMapFile fm held) where
  toBitmapWrites := bitmapWrites fm held
  memory := bitmapWrite_memory

/-- The request for a sector after `a` that were met cannot be met. -/
def Short (σ₀ : FsState) (a : ℕ) : Prop := σ₀.freeMap.free.card = a ∨ σ₀.memory a = false

section Allocate

variable {bitmapWrite : Kernel Bool} {own : Set BlockSector} {inv : FsState → Prop} {σ : FsState}

/-- **`free_map_allocate (1, …)`**, and why it fails. -/
theorem freeMapAllocateWith_serves (hbw : BitmapServes bitmapWrite own inv) (h : inv σ)
    (hopen : σ.freeMapFile ≠ none) :
    Returns (freeMapAllocateWith bitmapWrite 1) σ fun sector σ' => inv σ' ∧
      ((sector = none ∧ Missed own σ σ' ∧ (σ.freeMap.free = ∅ ∨ σ.memory 0 = false)) ∨
        ∃ v, sector = some v ∧ Took own σ σ' v ∧ σ.memory 0 = true ∧
          σ'.memory = σ.shift.memory) := by
  have hmemory : Returns (freeMapAllocateWith bitmapWrite 1) σ fun sector σ' =>
      (sector = none → σ.freeMap.free = ∅ ∨ σ.memory 0 = false) ∧
        (sector ≠ none → σ.memory 0 = true ∧ σ'.memory = σ.shift.memory) := by
    unfold freeMapAllocateWith
    rw [returns_get_bind]
    cases hscan : σ.freeMap.scan 0 1 false with
    | none =>
      simp only [Bitmap.scanAndFlip, hscan, Option.map_none, returns_pure]
      refine ⟨fun _ => .inl ?_, fun hne => absurd rfl hne⟩
      refine Finset.eq_empty_of_forall_notMem fun i hi => ?_
      obtain ⟨hlt, hfree⟩ := Bitmap.mem_free.1 hi
      rw [Bitmap.scan_one_none_iff.1 hscan i hlt] at hfree
      cases hfree
    | some i =>
      obtain ⟨hlt, -, -⟩ := Bitmap.scan_one_some hscan
      set σ₁ : FsState := { σ with freeMap := σ.freeMap.setMultiple i 1 true }
      have hinv₁ : inv σ₁ := hbw.stable h ⟨rfl, rfl, rfl, rfl, rfl, id⟩ fun _ _ => rfl
      have hpos : 0 < σ₁.freeMap.bitCnt := Nat.zero_lt_of_lt hlt
      simp only [Bitmap.scanAndFlip, hscan, Option.map_some, returns_set_bind, Bool.not_false,
        if_neg hopen]
      refine (hbw.memory hinv₁ hopen hpos).seq fun written σ₂ h₂ => ?_
      obtain ⟨rfl, hmem⟩ := h₂
      have hmem₁ : σ₁.memory 0 = σ.memory 0 := rfl
      rw [hmem₁]
      cases hm : σ.memory 0 with
      | true =>
        rw [if_pos rfl, returns_pure]
        exact ⟨(fun hno => by cases hno), fun _ => ⟨rfl, hmem⟩⟩
      | false =>
        rw [if_neg (by simp), returns_modify_bind, returns_pure]
        exact ⟨fun _ => .inr rfl, fun hno => absurd rfl hno⟩
  refine ((freeMapAllocateWith_returns hbw.toBitmapWrites h).and hmemory).mono fun sector σ' h' => ?_
  obtain ⟨⟨hinv, ⟨rfl, hmiss⟩ | ⟨v, rfl, htook⟩⟩, hnone, hsome⟩ := h'
  · exact ⟨hinv, .inl ⟨rfl, hmiss, hnone rfl⟩⟩
  · obtain ⟨hmem, hmem'⟩ := hsome (by simp)
    exact ⟨hinv, .inr ⟨v, rfl, htook, hmem, hmem'⟩⟩

end Allocate

/-- `allocate_blocks` has turned the index `ι₀` into `ι`: the data blocks below `f`
are there, those from `f` on are as they were, and `a` sectors were taken. -/
structure Filling (own : Set BlockSector) (inv : FsState → Prop) (σ₀ : FsState) (ι₀ : Index)
    (buf : Set Slot) (f a : ℕ) (σ : FsState) (ι : Index) : Prop where
  indexed : Indexed own buf σ ι
  reserved : Reserved own σ
  inv : inv σ
  same : Same σ₀ σ
  keep : ∀ {s}, ι₀.Has s → ι.sector s = ι₀.sector s
  has : ∀ {s}, ι₀.Has s → ι.Has s
  fresh : ∀ {s}, ι.Has s → ¬ι₀.Has s → σ₀.freeMap.bits (ι.sector s).toNat = false
  bits : ∀ n, σ.freeMap.bits n = true ↔
    σ₀.freeMap.bits n = true ∨ ∃ s, ι.Has s ∧ ¬ι₀.Has s ∧ (ι.sector s).toNat = n
  full : ∀ b < f, ι.sector (.data b) ≠ 0
  rest : ∀ b, f ≤ b → ι.sector (.data b) = ι₀.sector (.data b)
  tight : ∀ {s}, ι.Has s → ¬ι₀.Has s → s.first ≤ f
  count : ι.nodes.card = ι₀.nodes.card + a
  free : σ.freeMap.free.card + a = σ₀.freeMap.free.card
  granted : ∀ i < a, σ₀.memory i = true
  outside : ∀ x ∉ own, (∀ s, s.IsTable → s ≠ .root → ι.Has s → ι.sector s ≠ x) →
    σ.store x = σ₀.store x
  tail : ∀ j : Fin 512, 56 ≤ j.val → ι.table .root j = ι₀.table .root j

/-- The memory requests so far were those for the `a` sectors. -/
def Paid (σ₀ : FsState) (a : ℕ) (σ : FsState) : Prop := ∀ i, σ.memory i = σ₀.memory (i + a)

namespace Filling

variable {own : Set BlockSector} {inv : FsState → Prop} {σ₀ σ σ' : FsState} {ι₀ ι : Index}
  {buf : Set Slot} {f f' a : ℕ} {v : BlockSector} {p c : Slot} {i : Fin 128}

/-- Before the first entry. -/
theorem refl (h : Indexed own buf σ ι) (hr : Reserved own σ) (hinv : inv σ) :
    Filling own inv σ ι buf 0 0 σ ι where
  indexed := h
  reserved := hr
  inv := hinv
  same := .refl σ
  keep _ := rfl
  has h := h
  fresh hs hn := absurd hs hn
  bits _ := ⟨.inl, fun h => h.elim id fun ⟨_, hs, hn, _⟩ => absurd hs hn⟩
  full b hb := absurd hb (Nat.not_lt_zero b)
  rest _ _ := rfl
  tight hs hn := absurd hs hn
  count := (Nat.add_zero _).symm
  free := Nat.add_zero _
  granted i hi := absurd hi (Nat.not_lt_zero i)
  outside _ _ _ := rfl
  tail _ _ := rfl

/-- A sector that is free now was free before. -/
theorem free_of_free (h : Filling own inv σ₀ ι₀ buf f a σ ι) {n : ℕ} (hn : n ∈ σ.freeMap.free) :
    n ∈ σ₀.freeMap.free := by
  obtain ⟨hlt, hbit⟩ := Bitmap.mem_free.1 hn
  refine Bitmap.mem_free.2 ⟨h.same.bitCnt ▸ hlt, ?_⟩
  by_contra hset
  rw [Bool.not_eq_false] at hset
  rw [(h.bits n).2 (.inl hset)] at hbit
  cases hbit

/-- Fewer index blocks need be up to date. -/
theorem buffer (h : Filling own inv σ₀ ι₀ buf f a σ ι) {buf' : Set Slot} (hbuf : buf ⊆ buf') :
    Filling own inv σ₀ ι₀ buf' f a σ ι :=
  { h with indexed := h.indexed.buffer hbuf }

/-- Past an entry that is not `0`. -/
theorem skip (h : Filling own inv σ₀ ι₀ buf f a σ ι) (hne : ι.sector (.data f) ≠ 0) :
    Filling own inv σ₀ ι₀ buf (f + 1) a σ ι :=
  { h with
    full := fun b hb => by
      rcases Nat.lt_succ_iff_lt_or_eq.1 hb with hlt | rfl
      · exact h.full b hlt
      · exact hne
    rest := fun b hb => h.rest b (by omega)
    tight := fun hs hn => (h.tight hs hn).trans (Nat.le_succ f) }

/-- **One node more.** -/
theorem put (h : Filling own inv σ₀ ι₀ buf f a σ ι) (hpaid : Paid σ₀ a σ) {σ₁ : FsState}
    (htook : Took own σ σ₁ v) (hm : σ.memory 0 = true) (hp : ι.Has p) (hbuf : p ∈ buf)
    (hc : p.child i = some c) (hempty : ι.sector c = 0) (hinv : inv σ') (hsame : Same σ₁ σ')
    (hmap : σ'.freeMap = σ₁.freeMap) (hstore : ∀ x ∉ own, x ≠ v → σ'.store x = σ₁.store x)
    (hzero : c.IsTable → σ'.store v = Sector.zero) (hdata : ¬c.IsTable → σ'.store v = σ₁.store v)
    (hle : f ≤ f') (hfirst : c.first ≤ f')
    (hnext : ∀ b, f ≤ b → (b < f' ↔ c = .data b)) :
    Filling own inv σ₀ ι₀ buf f' (a + 1) σ' (ι.put p i c v) := by
  have hv := htook.free
  have hv₀ := h.reserved.ne_zero hv
  have hcroot := Slot.child_ne_root hc
  have hnew : ¬ι.Has c := fun hhas => (hhas.resolve_left hcroot) hempty
  have hhas : ∀ {s}, (ι.put p i c v).Has s ↔ s = c ∨ ι.Has s := Index.has_put hcroot hv₀
  have hold : ∀ {s}, ι.Has s → (ι.put p i c v).sector s = ι.sector s := by
    intro s hs
    refine Index.sector_put ?_
    rintro rfl
    exact hnew hs
  have hmap' : σ'.freeMap = σ.freeMap.setMultiple v.toNat 1 true := hmap.trans htook.freeMap
  have hset : ∀ n, σ'.freeMap.bits n = true ↔ n = v.toNat ∨ σ.freeMap.bits n = true := by
    intro n
    rw [hmap', Bitmap.bits_setMultiple_one]
    split_ifs with hn
    · simp [hn]
    · simp [hn]
  have hstore' : ∀ x ∉ own, x ≠ v → σ'.store x = σ.store x :=
    fun x hx hxv => (hstore x hx hxv).trans (htook.store x hx)
  refine ⟨h.indexed.put h.reserved hp hbuf hc hempty hv hmap' hstore' hzero, ⟨?_, ?_⟩, hinv,
    (h.same.trans htook.same).trans hsame, ?_, ?_, ?_, ?_, ?_, ?_, ?_, ?_, ?_, ?_, ?_, ?_⟩
  · exact (hset 0).2 (.inr h.reserved.zero)
  · exact fun x hx => (hset _).2 (.inr (h.reserved.own x hx))
  · intro s hs
    rw [hold (h.has hs), h.keep hs]
  · exact fun hs => hhas.2 (.inr (h.has hs))
  · intro s hs hs₀
    rcases hhas.1 hs with rfl | hs'
    · rw [Index.sector_put_self]
      exact (Bitmap.mem_free.1 (h.free_of_free hv)).2
    · rw [hold hs']
      exact h.fresh hs' hs₀
  · intro n
    rw [hset, h.bits]
    constructor
    · rintro (rfl | hn | ⟨s, hs, hs₀, rfl⟩)
      · exact .inr ⟨c, hhas.2 (.inl rfl), fun hc₀ => hnew (h.has hc₀), by rw [Index.sector_put_self]⟩
      · exact .inl hn
      · exact .inr ⟨s, hhas.2 (.inr hs), hs₀, by rw [hold hs]⟩
    · rintro (hn | ⟨s, hs, hs₀, rfl⟩)
      · exact .inr (.inl hn)
      · rcases hhas.1 hs with rfl | hs'
        · exact .inl (by rw [Index.sector_put_self])
        · exact .inr (.inr ⟨s, hs', hs₀, by rw [hold hs']⟩)
  · intro b hb
    by_cases hbc : Slot.data b = c
    · rw [hbc, Index.sector_put_self]
      exact hv₀
    · rw [Index.sector_put hbc]
      refine h.full b ?_
      by_contra hge
      exact hbc ((hnext b (not_lt.1 hge)).1 hb).symm
  · intro b hb
    have hbc : Slot.data b ≠ c := fun he => absurd ((hnext b (hle.trans hb)).2 he.symm) (not_lt.2 hb)
    rw [Index.sector_put hbc]
    exact h.rest b (hle.trans hb)
  · intro s hs hs₀
    rcases hhas.1 hs with rfl | hs'
    · exact hfirst
    · exact (h.tight hs' hs₀).trans hle
  · have hinsert : (ι.put p i c v).nodes = insert c ι.nodes := by
      ext s
      simp only [Index.nodes, Finset.mem_insert, Finset.mem_filter, hhas]
      constructor
      · rintro ⟨hall, rfl | hs⟩
        · exact .inl rfl
        · exact .inr ⟨hall, hs⟩
      · rintro (rfl | hs)
        · exact ⟨Slot.mem_all fun b hb => Slot.lt_capacity (hb ▸ hc), .inl rfl⟩
        · exact ⟨hs.1, .inr hs.2⟩
    rw [hinsert, Finset.card_insert_of_notMem, h.count, Nat.add_assoc]
    simp only [Index.nodes, Finset.mem_filter, hnew, and_false, not_false_eq_true]
  · have hcard : σ'.freeMap.free.card + 1 = σ.freeMap.free.card := by
      rw [hmap', Bitmap.free_setMultiple_one]
      exact Finset.card_erase_add_one hv
    have := h.free
    omega
  · intro k hk
    rcases Nat.lt_succ_iff_lt_or_eq.1 hk with hlt | rfl
    · exact h.granted k hlt
    · rw [hpaid 0, Nat.zero_add] at hm
      exact hm
  · intro x hx hno
    have hxv : x ≠ v ∨ ¬c.IsTable := by
      by_contra hboth
      rw [not_or, not_not, not_not] at hboth
      obtain ⟨rfl, hct⟩ := hboth
      exact hno c hct hcroot (hhas.2 (.inl rfl)) Index.sector_put_self
    have hback : σ.store x = σ₀.store x := by
      refine h.outside x hx fun s hst hsroot hs => ?_
      rw [← hold hs]
      exact hno s hst hsroot (hhas.2 (.inr hs))
    rcases hxv with hxv | hct
    · rw [hstore' x hx hxv, hback]
    · by_cases hxv : x = v
      · subst hxv
        rw [hdata hct, htook.store x hx, hback]
      · rw [hstore' x hx hxv, hback]
  · intro j hj
    rw [← h.tail j hj]
    by_cases hroot : .root = p
    · subst hroot
      rw [Index.table_put_self]
      exact Growing.tail_setWord (Growing.root_child_lt hc) v hj
    · rw [Index.table_put hroot hcroot.symm]

/-- A request that was not met. -/
theorem missed (h : Filling own inv σ₀ ι₀ buf f a σ ι) (hinv : inv σ') (hm : Missed own σ σ') :
    Filling own inv σ₀ ι₀ buf f a σ' ι :=
  { h with
    indexed := h.indexed.congr (fun _ hs _ => hm.store _ (h.indexed.notOwn hs))
      (fun hs => by rw [hm.freeMap]; exact h.indexed.taken hs) (by rw [hm.freeMap])
    reserved := ⟨by rw [hm.freeMap]; exact h.reserved.zero,
      fun x hx => by rw [hm.freeMap]; exact h.reserved.own x hx⟩
    inv := hinv
    same := h.same.trans hm.same
    bits := fun n => by
      rw [hm.freeMap]
      exact h.bits n
    free := by
      rw [hm.freeMap]
      exact h.free
    outside := fun x hx hno => (hm.store x hx).trans (h.outside x hx hno) }

/-- Why it was not met. -/
theorem short (h : Filling own inv σ₀ ι₀ buf f a σ ι) (hpaid : Paid σ₀ a σ)
    (hwhy : σ.freeMap.free = ∅ ∨ σ.memory 0 = false) : Short σ₀ a := by
  rcases hwhy with hfree | hmem
  · left
    have := h.free
    rw [hfree, Finset.card_empty] at this
    omega
  · right
    rw [hpaid 0, Nat.zero_add] at hmem
    exact hmem

/-- Writing an index block back from its buffer. -/
theorem save (h : Filling own inv σ₀ ι₀ buf f a σ ι)
    (hbw : ∀ {σ σ'}, inv σ → Same σ σ' → (∀ x ∈ own, σ'.store x = σ.store x) → inv σ')
    (hp : ι.Has p) (hroot : p ≠ .root) (htable : p.IsTable) :
    Filling own inv σ₀ ι₀ (buf \ {p}) f a
      { σ with store := Function.update σ.store (ι.sector p) (ι.table p) } ι :=
  { h with
    indexed := h.indexed.save hp
    reserved := ⟨h.reserved.zero, h.reserved.own⟩
    inv := hbw h.inv ⟨rfl, rfl, rfl, rfl, rfl, id⟩ fun x hx => by
      refine Function.update_of_ne ?_ _ _
      rintro rfl
      exact h.indexed.notOwn hp hx
    same := h.same.trans ⟨rfl, rfl, rfl, rfl, rfl, id⟩
    outside := fun x hx hno => by
      show Function.update σ.store _ _ x = _
      rw [Function.update_of_ne (hno p htable hroot hp).symm]
      exact h.outside x hx hno }

end Filling

/-! ### The loops -/

/-- Where a loop of `allocate_blocks` that has filled the entries below `lo` goes on to: `hi`
or as many blocks as it was asked for, or the first request that is not met. -/
structure Stops (σ₀ : FsState) (ι₀ : Index) (lo hi blocks : ℕ) (ok : Bool) (allocated : ℕ)
    (f a : ℕ) (σ : FsState) : Prop where
  count : allocated = (ι₀.empties f).card
  le : allocated ≤ blocks
  lo_le : lo ≤ f
  le_hi : f ≤ hi
  done : ok = true → Paid σ₀ a σ ∧ (f = hi ∨ blocks ≤ allocated)
  failed : ok = false → allocated < blocks ∧ f < hi ∧ ι₀.sector (.data f) = 0 ∧ Short σ₀ a

theorem Stops.weaken {σ₀ σ : FsState} {ι₀ : Index} {lo lo' hi hi' blocks allocated f a : ℕ}
    {ok : Bool} (h : Stops σ₀ ι₀ lo hi blocks ok allocated f a σ) (hlo : lo' ≤ lo) (hhi : hi ≤ hi')
    (hdone : ok = true → f = hi → hi = hi' ∨ blocks ≤ allocated) :
    Stops σ₀ ι₀ lo' hi' blocks ok allocated f a σ :=
  { h with
    lo_le := hlo.trans h.lo_le
    le_hi := h.le_hi.trans hhi
    done := fun hok => by
      obtain ⟨hpaid, rfl | hge⟩ := h.done hok
      · exact ⟨hpaid, hdone hok rfl⟩
      · exact ⟨hpaid, .inr hge⟩
    failed := fun hok => by
      obtain ⟨hlt, hf, hzero, hshort⟩ := h.failed hok
      exact ⟨hlt, hf.trans_le hhi, hzero, hshort⟩ }

section Loops

variable {bitmapWrite : Kernel Bool} {own : Set BlockSector} {inv : FsState → Prop}
  {σ₀ : FsState} {ι₀ : Index} {buf : Set Slot} {blocks : ℕ}

/-- **Filling a table.**  Entry `j` of `p` stands for data block `base + j`.  By
induction on the entries to come. -/
theorem fillEntries_fills (hbw : BitmapServes bitmapWrite own inv) (hopen : σ₀.freeMapFile ≠ none)
    {p : Slot} {base : ℕ} (is : List (Fin 128)) :
    ∀ {k n allocated a : ℕ} {σ : FsState} {ι : Index},
      Filling own inv σ₀ ι₀ buf (base + k) a σ ι → Paid σ₀ a σ → ι.Has p → p ∈ buf →
      is.map Fin.val = List.range' k n → (∀ j ∈ is, p.child j = some (.data (base + j.val))) →
      allocated = (ι₀.empties (base + k)).card → allocated ≤ blocks →
      Returns (fillEntries bitmapWrite blocks is (ι.table p) allocated) σ fun r σ' =>
        ∃ f a' ι', Filling own inv σ₀ ι₀ buf f a' σ' ι' ∧ SameTables p ι ι' ∧
          r.2.1 = ι'.table p ∧
          Stops σ₀ ι₀ (base + k) (base + k + n) blocks r.1 r.2.2 f a' σ' ∧
          ∀ x ∉ own, σ'.store x = σ.store x := by
  induction is with
  | nil =>
    intro k n allocated a σ ι h hpaid hp hbuf his _ hcount hle
    have hn : 0 = n := by simpa using congrArg List.length his
    subst hn
    rw [fillEntries, returns_pure]
    exact ⟨_, a, ι, h, .refl p ι, rfl, ⟨hcount, hle, le_rfl, le_rfl, fun _ => ⟨hpaid, .inl rfl⟩,
      (fun hok => by cases hok)⟩, fun _ _ => rfl⟩
  | cons e is ih =>
    intro k n allocated a σ ι h hpaid hp hbuf his hchild hcount hle
    obtain ⟨m, rfl, he, his'⟩ := map_val_cons his
    have hchild' : ∀ j ∈ is, p.child j = some (.data (base + j.val)) :=
      fun j hj => hchild j (List.mem_cons_of_mem _ hj)
    have hce := hchild e List.mem_cons_self
    rw [he] at hce
    have hword := h.indexed.shown hce hp
    have hend : base + k + (m + 1) = base + (k + 1) + m := by omega
    have hstart : base + k ≤ base + (k + 1) := by omega
    rw [hend, fillEntries]
    split_ifs with hmore hentry
    · -- entry `0`: a block is put here
      rw [hword] at hentry
      have hzero : ι₀.sector (.data (base + k)) = 0 := by rw [← h.rest _ le_rfl, hentry]
      have hopenσ : σ.freeMapFile ≠ none := by rw [h.same.freeMapFile]; exact hopen
      refine (freeMapAllocateWith_serves hbw h.inv hopenσ).seq fun sector σ₁ h₁ => ?_
      obtain ⟨hinv, ⟨rfl, hmiss, hwhy⟩ | ⟨v, rfl, htook, hm, hmem⟩⟩ := h₁
      · dsimp only
        rw [returns_pure]
        exact ⟨_, a, ι, h.missed hinv hmiss, .refl p ι, rfl, ⟨hcount, hle, le_rfl, by omega,
          (fun hok => by cases hok), fun _ => ⟨hmore, by omega, hzero, h.short hpaid hwhy⟩⟩, hmiss.store⟩
      · have hg : Filling own inv σ₀ ι₀ buf (base + (k + 1)) (a + 1) σ₁
            (ι.put p e (.data (base + k)) v) := by
          refine h.put hpaid htook hm hp hbuf hce hentry hinv (.refl σ₁) rfl (fun _ _ _ => rfl)
            (fun hct => hct.elim) (fun _ => rfl) hstart hstart fun b hb => ?_
          rw [Slot.data.injEq]
          omega
        have hpaid₁ : Paid σ₀ (a + 1) σ₁ := by
          intro i
          rw [hmem]
          show σ.memory (i + 1) = _
          rw [hpaid (i + 1)]
          congr 1
          omega
        have hpd : p ≠ .data (base + k) := (Slot.child_ne_self hce).symm
        have hp₁ : (ι.put p e (.data (base + k)) v).Has p :=
          (Index.has_put (by simp) (h.reserved.ne_zero htook.free)).2 (.inr hp)
        have hcount₁ : allocated + 1 = (ι₀.empties (base + (k + 1))).card := by
          rw [hcount, ← Nat.add_assoc, Index.card_empties_succ hzero]
        have hnext := ih hg hpaid₁ hp₁ hbuf his' hchild' hcount₁ hmore
        rw [Index.table_put_self] at hnext
        refine hnext.mono fun r σ₂ h₂ => ?_
        obtain ⟨f, a', ι', hf, hsame, htab, hstops, hstore⟩ := h₂
        refine ⟨f, a', ι', hf, ⟨fun {s} hs => ?_, fun {s} hs hsp => ?_⟩, htab,
          hstops.weaken hstart le_rfl fun _ _ => .inl rfl,
          fun x hx => (hstore x hx).trans (htook.store x hx)⟩
        · rw [hsame.sector hs, Index.sector_put (Slot.isTable_iff.1 hs _)]
        · rw [hsame.table hs hsp, Index.table_put hsp (Slot.isTable_iff.1 hs _)]
    · -- an entry that is not `0` stays
      rw [hword] at hentry
      have hne₀ : ι₀.sector (.data (base + k)) ≠ 0 := by
        rw [← h.rest _ le_rfl]
        exact hentry
      have hcount₁ : allocated = (ι₀.empties (base + (k + 1))).card := by
        rw [hcount, ← Nat.add_assoc, Index.empties_succ_of_ne hne₀]
      refine (ih (h.skip hentry) hpaid hp hbuf his' hchild' hcount₁ hle).mono fun r σ₂ h₂ => ?_
      obtain ⟨f, a', ι', hf, hsame, htab, hstops, hstore⟩ := h₂
      exact ⟨f, a', ι', hf, hsame, htab, hstops.weaken hstart le_rfl fun _ _ => .inl rfl, hstore⟩
    · rw [returns_pure]
      exact ⟨_, a, ι, h, .refl p ι, rfl, ⟨hcount, hle, le_rfl, by omega,
        fun _ => ⟨hpaid, .inr (not_lt.1 hmore)⟩, (fun hok => by cases hok)⟩, fun _ _ => rfl⟩

/-- **An index block**, taken as it is or allocated and zeroed. -/
theorem openTable_fills (hbw : BitmapServes bitmapWrite own inv) (hopen : σ₀.freeMapFile ≠ none)
    {f a : ℕ} {σ : FsState} {ι : Index} (h : Filling own inv σ₀ ι₀ buf f a σ ι)
    (hpaid : Paid σ₀ a σ) {p c : Slot} {i : Fin 128} (hp : ι.Has p) (hbuf : p ∈ buf)
    (hc : p.child i = some c) (hct : c.IsTable) (hfirst : c.first ≤ f) :
    Returns (openTable bitmapWrite ((ι.table p).word i)) σ fun r σ' =>
      (r = none ∧ ι.sector c = 0 ∧ Filling own inv σ₀ ι₀ buf f a σ' ι ∧ Short σ₀ a) ∨
        ∃ a' ι', r = some (ι'.sector c) ∧ ι'.Has c ∧ Filling own inv σ₀ ι₀ buf f a' σ' ι' ∧
          Paid σ₀ a' σ' ∧ ι'.table p = (ι.table p).setWord i (ι'.sector c) ∧
          (∀ s, s ≠ p → s ≠ c → ι'.table s = ι.table s) ∧ ∀ s ≠ c, ι'.sector s = ι.sector s := by
  have hcroot := Slot.child_ne_root hc
  have hword := h.indexed.shown hc hp
  unfold openTable
  rw [hword]
  split_ifs with hzero
  · have hopenσ : σ.freeMapFile ≠ none := by rw [h.same.freeMapFile]; exact hopen
    refine (freeMapAllocateWith_serves hbw h.inv hopenσ).seq fun sector σ₁ h₁ => ?_
    obtain ⟨hinv, ⟨rfl, hmiss, hwhy⟩ | ⟨v, rfl, htook, hm, hmem⟩⟩ := h₁
    · dsimp only
      rw [returns_pure]
      exact .inl ⟨rfl, hzero, h.missed hinv hmiss, h.short hpaid hwhy⟩
    · dsimp only [writeSector]
      rw [returns_modify_bind, returns_pure]
      have hv₀ := h.reserved.ne_zero htook.free
      have hself : (ι.put p i c v).sector c = v := Index.sector_put_self
      refine .inr ⟨a + 1, ι.put p i c v, by rw [hself], (Index.has_put hcroot hv₀).2 (.inl rfl), ?_, ?_,
        by rw [Index.table_put_self, hself], fun s hsp hsc => Index.table_put hsp hsc,
        fun s hs => Index.sector_put hs⟩
      · refine h.put hpaid htook hm hp hbuf hc hzero ?_ ⟨rfl, rfl, rfl, rfl, rfl, id⟩ rfl ?_ ?_ ?_ le_rfl
          hfirst fun b hb => ?_
        · refine hbw.stable hinv ⟨rfl, rfl, rfl, rfl, rfl, id⟩ fun x hx => ?_
          refine Function.update_of_ne ?_ _ _
          rintro rfl
          exact h.reserved.notMem htook.free hx
        · exact fun x _ hxv => Function.update_of_ne hxv _ _
        · exact fun _ => Function.update_self ..
        · exact fun hno => absurd hct hno
        · refine ⟨fun hlt => absurd hb (not_le.2 hlt), fun hcb => ?_⟩
          exact absurd hcb (Slot.isTable_iff.1 hct b)
      · intro k
        show σ₁.memory k = _
        rw [hmem]
        show σ.memory (k + 1) = _
        rw [hpaid (k + 1)]
        congr 1
        omega
  · rw [returns_pure]
    refine .inr ⟨a, ι, rfl, .inr hzero, h, hpaid, ?_, fun _ _ _ => rfl, fun _ _ => rfl⟩
    rw [← hword, Sector.setWord_word]

/-- Reading an index block and filling it. -/
theorem fillTable_fills (hbw : BitmapServes bitmapWrite own inv) (hopen : σ₀.freeMapFile ≠ none)
    {p : Slot} {base a allocated : ℕ} {σ : FsState} {ι : Index}
    (h : Filling own inv σ₀ ι₀ buf base a σ ι) (hpaid : Paid σ₀ a σ) (hp : ι.Has p)
    (hpt : p.IsTable) (hbuf : p ∉ buf) (hchild : ∀ j, p.child j = some (.data (base + j.val)))
    (hcount : allocated = (ι₀.empties base).card) (hle : allocated ≤ blocks) :
    Returns (fillEntries bitmapWrite blocks (List.finRange 128) (σ.store (ι.sector p)) allocated) σ
      fun r σ' => ∃ f a' ι', Filling own inv σ₀ ι₀ (insert p buf) f a' σ' ι' ∧ SameTables p ι ι' ∧
        r.2.1 = ι'.table p ∧ Stops σ₀ ι₀ base (base + 128) blocks r.1 r.2.2 f a' σ' ∧
        σ'.store (ι'.sector p) = σ.store (ι.sector p) := by
  rw [h.indexed.stored hpt hp hbuf]
  have hrange : (List.finRange 128).map Fin.val = List.range' 0 128 := by
    rw [List.map_coe_finRange_eq_range, List.range_eq_range']
  refine (fillEntries_fills hbw hopen (List.finRange 128) (k := 0) (h.buffer (Set.subset_insert p buf))
    hpaid hp (Set.mem_insert p buf) hrange (fun j _ => hchild j) hcount hle).mono fun r σ' h' => ?_
  obtain ⟨f, a', ι', hf, hsame, htab, hstops, hstore⟩ := h'
  refine ⟨f, a', ι', hf, hsame, htab, hstops, ?_⟩
  rw [hsame.sector hpt, hstore _ (h.indexed.notOwn hp)]
  exact h.indexed.stored hpt hp hbuf

/-- The loop over the doubly indirect block ends where enough blocks are there. -/
theorem fillTables_of_le {is : List (Fin 128)} {doubly : Sector} {allocated : ℕ}
    (h : blocks ≤ allocated) :
    fillTables bitmapWrite blocks is doubly allocated = pure (true, doubly, allocated) := by
  cases is with
  | nil => rfl
  | cons i is => rw [fillTables, if_neg (not_lt.2 h)]

/-- A loop over the doubly indirect block failed under entry `i`: what the index block there holds
is not what is on the disk. -/
structure Spilt (own : Set BlockSector) (inv : FsState → Prop) (σ₀ : FsState) (ι₀ : Index)
    (buf : Set Slot) (f a : ℕ) (σ : FsState) (ι : Index) (i : Fin 128) : Prop where
  filling : Filling own inv σ₀ ι₀ (insert (.table i) buf) f a σ ι
  ge : 140 + 128 * i.val ≤ f
  lt : f < 140 + 128 * (i.val + 1)
  disk : ι.Has (.table i) → ∀ j : Fin 128,
    (σ.store (ι.sector (.table i))).word j = ι₀.sector (.data (140 + 128 * i.val + j.val))

/-- **Filling the index blocks under the doubly indirect block.**  By induction on
the entries to come. -/
theorem fillTables_fills (hbw : BitmapServes bitmapWrite own inv) (hopen : σ₀.freeMapFile ≠ none)
    (hbuf : .doubly ∈ buf) (hno : ∀ i, .table i ∉ buf) (is : List (Fin 128)) :
    ∀ {k n allocated a : ℕ} {σ : FsState} {ι : Index},
      Filling own inv σ₀ ι₀ buf (140 + 128 * k) a σ ι → Paid σ₀ a σ → ι.Has .doubly →
      is.map Fin.val = List.range' k n →
      allocated = (ι₀.empties (140 + 128 * k)).card → allocated ≤ blocks →
      Returns (fillTables bitmapWrite blocks is (ι.table .doubly) allocated) σ fun r σ' =>
        ∃ f a' ι', r.2.1 = ι'.table .doubly ∧ ι'.table .root = ι.table .root ∧
          ι'.sector .doubly = ι.sector .doubly ∧
          Stops σ₀ ι₀ (140 + 128 * k) (140 + 128 * (k + n)) blocks r.1 r.2.2 f a' σ' ∧
          (r.1 = true → Filling own inv σ₀ ι₀ buf f a' σ' ι') ∧
          (r.1 = false → ∃ i, Spilt own inv σ₀ ι₀ buf f a' σ' ι' i) := by
  induction is with
  | nil =>
    intro k n allocated a σ ι h hpaid hp his hcount hle
    have hn : 0 = n := by simpa using congrArg List.length his
    subst hn
    rw [fillTables, returns_pure]
    exact ⟨_, a, ι, rfl, rfl, rfl, ⟨hcount, hle, le_rfl, le_rfl, fun _ => ⟨hpaid, .inl rfl⟩,
      (fun hok => by cases hok)⟩, fun _ => h, (fun hok => by cases hok)⟩
  | cons e is ih =>
    intro k n allocated a σ ι h hpaid hp his hcount hle
    obtain ⟨m, rfl, he, his'⟩ := map_val_cons his
    have hce : Slot.doubly.child e = some (.table e) := rfl
    have hend : 140 + 128 * (k + (m + 1)) = 140 + 128 * (k + 1 + m) := by omega
    have hnext : 140 + 128 * k + 128 = 140 + 128 * (k + 1) := by omega
    rw [fillTables]
    split_ifs with hmore
    · refine (openTable_fills hbw hopen h hpaid hp hbuf hce trivial (by rw [Slot.first, he])).seq
        fun table σ₁ h₁ => ?_
      obtain ⟨rfl, hzero, h₁, hshort⟩ | ⟨a₁, ι₁, rfl, hhas, h₁, hpaid₁, htab₁, hother₁, hsector₁⟩ := h₁
      · -- no sector for the index block
        dsimp only
        rw [returns_pure]
        have hnot : ¬ι.Has (.table e) := fun hhas => (hhas.resolve_left (by simp)) hzero
        have hdata : ι₀.sector (.data (140 + 128 * k)) = 0 := by
          rw [← h.rest _ le_rfl]
          refine h.indexed.closed (p := .table e) (i := 0) ?_ hnot
          rw [Slot.child, he]
          rfl
        refine ⟨_, a, ι, rfl, rfl, rfl, ⟨hcount, hle, le_rfl, by omega, (fun hok => by cases hok),
          fun _ => ⟨hmore, by omega, hdata, hshort⟩⟩, (fun hok => by cases hok), fun _ => ⟨e, ?_⟩⟩
        exact ⟨h₁.buffer (Set.subset_insert _ _), by omega, by omega, fun hhas => absurd hhas hnot⟩
      · have hchild : ∀ j, (Slot.table e).child j = some (.data (140 + 128 * k + j.val)) := by
          intro j
          rw [Slot.child, he]
        have hroot₁ : ι₁.table .root = ι.table .root := hother₁ _ (by simp) (by simp)
        have hdbl₁ : ι₁.sector .doubly = ι.sector .doubly := hsector₁ _ (by simp)
        dsimp only [readSector]
        rw [bind_assoc, returns_get_bind, pure_bind]
        refine (fillTable_fills hbw hopen h₁ hpaid₁ hhas trivial (hno e) hchild hcount hle).seq
          fun r σ₂ h₂ => ?_
        obtain ⟨f, a₂, ι₂, hf, hsame, htab, hstops, hdisk⟩ := h₂
        obtain ⟨ok, indirect, allocated₂⟩ := r
        dsimp only at htab hstops ⊢
        have hdbl : (ι.table .doubly).setWord e (ι₁.sector (.table e)) = ι₂.table .doubly := by
          rw [hsame.table (s := .doubly) trivial (by simp), htab₁]
        have hroot₂ : ι₂.table .root = ι.table .root :=
          (hsame.table (s := .root) trivial (by simp)).trans hroot₁
        have hdbl₂ : ι₂.sector .doubly = ι.sector .doubly :=
          (hsame.sector (s := .doubly) trivial).trans hdbl₁
        have hhas₂ : ι₂.Has (.table e) := hsame.has trivial hhas
        rw [hdbl]
        cases ok with
        | true =>
          obtain ⟨hpaid₂, hreach⟩ := hstops.done rfl
          have hsave := hf.save hbw.stable hhas₂ (by simp) trivial
          have hbuf' : insert (.table e) buf \ {.table e} = buf := by
            rw [Set.insert_sdiff_of_mem buf (Set.mem_singleton _)]
            exact Set.sdiff_singleton_eq_self (hno e)
          rw [hbuf', ← htab, hsame.sector (s := .table e) trivial] at hsave
          rw [if_pos rfl]
          dsimp only [writeSector]
          rw [returns_modify_bind]
          have hpaid₃ : Paid σ₀ a₂ { σ₂ with
              store := Function.update σ₂.store (ι₁.sector (.table e)) indirect } := hpaid₂
          by_cases hfull : blocks ≤ allocated₂
          · -- enough blocks are there
            rw [fillTables_of_le hfull, returns_pure]
            exact ⟨f, a₂, ι₂, rfl, hroot₂, hdbl₂, ⟨hstops.count, hstops.le, hstops.lo_le,
              hstops.le_hi.trans (by omega), fun _ => ⟨hpaid₃, .inr hfull⟩, (fun hok => by cases hok)⟩,
              fun _ => hsave, (fun hok => by cases hok)⟩
          · obtain rfl : f = 140 + 128 * (k + 1) := by
              rw [← hnext]
              exact hreach.resolve_right hfull
            have hhas₃ : ι₂.Has .doubly := by
              refine .inr ?_
              rw [hdbl₂]
              exact hp.resolve_left (by simp)
            refine (ih hsave hpaid₃ hhas₃ his' hstops.count hstops.le).mono fun r σ₃ h₃ => ?_
            obtain ⟨f, a₃, ι₃, htab₃, hroot₃, hdbl₃, hstops₃, hok₃, hfail₃⟩ := h₃
            rw [hend]
            exact ⟨f, a₃, ι₃, htab₃, hroot₃.trans hroot₂, hdbl₃.trans hdbl₂,
              hstops₃.weaken (by omega) le_rfl fun _ _ => .inl rfl, hok₃, hfail₃⟩
        | false =>
          rw [if_neg (by simp), returns_pure]
          obtain ⟨hlt, hflt, hzero, hshort⟩ := hstops.failed rfl
          have hge := hstops.lo_le
          refine ⟨f, a₂, ι₂, rfl, hroot₂, hdbl₂, hstops.weaken le_rfl (by omega)
            (fun hok => by cases hok), (fun hok => by cases hok), fun _ => ⟨e, hf, by omega, by omega,
            fun _ j => ?_⟩⟩
          rw [hdisk, h₁.indexed.stored (s := .table e) trivial hhas (hno e), h₁.indexed.shown (hchild j) hhas, he]
          exact h₁.rest _ (by omega)
    · rw [returns_pure]
      exact ⟨_, a, ι, rfl, rfl, rfl, ⟨hcount, hle, le_rfl, by omega,
        fun _ => ⟨hpaid, .inr (not_lt.1 hmore)⟩, (fun hok => by cases hok)⟩, fun _ => h,
        (fun hok => by cases hok)⟩

end Loops

/-! ### What is lost when a sector is missing -/

/-- From which data block on the new ones are in a buffer that is given up, if the data block `f`
gets no sector: from the first of its index block under the doubly indirect block. -/
def spillStart (f : ℕ) : ℕ := if 140 < f then f - (f - 140) % 128 else f

/-- The index as it is on the disk then. -/
def Index.spill (ι ι₀ : Index) (store : BlockSector → Sector) (f : ℕ) : Index where
  table s := if s = .root then ι.table .root else store (ι.sector s)
  sector
    | .data b => if spillStart f ≤ b then ι₀.sector (.data b) else ι.sector (.data b)
    | s => ι.sector s

theorem spillStart_le (f : ℕ) : spillStart f ≤ f := by
  unfold spillStart
  split_ifs <;> omega

section Spill

variable {own : Set BlockSector} {inv : FsState → Prop} {σ₀ σ : FsState} {ι₀ ι : Index}
  {buf : Set Slot} {f a : ℕ}

theorem Index.sector_spill_of_isTable {s : Slot} (hs : s.IsTable) :
    (ι.spill ι₀ σ.store f).sector s = ι.sector s := by
  cases s with
  | data b => exact hs.elim
  | _ => rfl

theorem Index.sector_spill_data (b : ℕ) : (ι.spill ι₀ σ.store f).sector (.data b) =
    if spillStart f ≤ b then ι₀.sector (.data b) else ι.sector (.data b) := rfl

/-- What is on the disk is in the index. -/
theorem Filling.sector_spill (h : Filling own inv σ₀ ι₀ buf f a σ ι) {s : Slot}
    (hs : (ι.spill ι₀ σ.store f).Has s) :
    ι.Has s ∧ (ι.spill ι₀ σ.store f).sector s = ι.sector s := by
  cases s with
  | data b =>
    rw [Index.has_data] at hs
    rw [Index.has_data]
    rw [Index.sector_spill_data] at hs ⊢
    split_ifs at hs ⊢ with hb
    · have hkeep := h.keep (Index.has_data.2 hs)
      exact ⟨by rw [hkeep]; exact hs, hkeep.symm⟩
    · exact ⟨hs, rfl⟩
  | _ => exact ⟨hs, rfl⟩

/-- **The index on the disk** lies on the sectors: only the index block that was in the buffer
differs. -/
theorem Filling.indexed_spill {i : Fin 128}
    (h : Filling own inv σ₀ ι₀ (insert (.table i) {.root}) f a σ ι) (hcap : f ≤ capacity)
    (hrange : ∀ b, spillStart f ≤ b → b < f → ∃ j, (Slot.table i).child j = some (.data b))
    (hdisk : ι.Has (.table i) → ∀ j b, (Slot.table i).child j = some (.data b) →
      (σ.store (ι.sector (.table i))).word j = (ι.spill ι₀ σ.store f).sector (.data b)) :
    Indexed own {.root} σ (ι.spill ι₀ σ.store f) := by
  have hsub := fun {s} => h.sector_spill (s := s)
  -- what is not under entry `i` is as it was
  have hother : ∀ {p c : Slot} {j : Fin 128}, p ≠ .table i → p.child j = some c →
      (ι.spill ι₀ σ.store f).sector c = ι.sector c := by
    intro p c j hp hc
    cases c with
    | data b =>
      rw [Index.sector_spill_data]
      split_ifs with hb
      · rcases Nat.lt_or_ge b f with hlt | hge
        · obtain ⟨j', hj'⟩ := hrange b hb hlt
          exact absurd (Slot.child_inj _ _ _ _ _ hc hj').1 hp
        · exact (h.rest b hge).symm
      · rfl
    | _ => rfl
  have htable : ∀ {p : Slot}, p.IsTable → ((ι.spill ι₀ σ.store f).Has p ↔ ι.Has p) := by
    intro p hp
    unfold Index.Has
    rw [Index.sector_spill_of_isTable hp]
  refine ⟨fun {p c j} hc hp => ?_, fun {p c j} hc hp => ?_, fun {b} hb => ?_, fun {s s'} hs hs' he => ?_,
    fun {s} hst hs hn => ?_, fun {s} hs => ?_, fun {s} hs => ?_, fun {s} hs => ?_⟩
  · have hpt := Slot.isTable_of_child hc
    have hp' := (htable hpt).1 hp
    by_cases hpi : p = .table i
    · subst hpi
      cases c with
      | data b => exact hdisk hp' j b hc
      | _ => cases hc
    · rw [hother hpi hc, ← h.indexed.shown hc hp']
      by_cases hroot : p = .root
      · subst hroot
        rfl
      · have hstored := h.indexed.stored hpt hp' (by simp [hpi, hroot])
        show (if p = .root then ι.table .root else σ.store (ι.sector p)).word j = _
        rw [if_neg hroot, hstored]
  · have hp' : ¬ι.Has p := fun hhas => hp ((htable (Slot.isTable_of_child hc)).2 hhas)
    by_contra hne
    have hroot := Slot.child_ne_root hc
    exact hp' (h.indexed.has_parent hc (hsub (.inr hne)).1)
  · rw [Index.sector_spill_data, ← h.rest b (hcap.trans hb), ite_self]
    exact h.indexed.bounded hb
  · rw [(hsub hs).2, (hsub hs').2] at he
    exact h.indexed.distinct (hsub hs).1 (hsub hs').1 he
  · have hroot : s ≠ .root := fun he => hn (he ▸ Set.mem_singleton s)
    rw [(hsub hs).2]
    exact (if_neg hroot).symm
  · rw [(hsub hs).2]
    exact h.indexed.taken (hsub hs).1
  · rw [(hsub hs).2]
    exact h.indexed.inRange (hsub hs).1
  · rw [(hsub hs).2]
    exact h.indexed.notOwn (hsub hs).1

/-- Nothing is lost in front of the doubly indirect part. -/
theorem Filling.indexed_spill_of_le (h : Filling own inv σ₀ ι₀ {.root} f a σ ι) (hf : f ≤ 140) :
    Indexed own {.root} σ (ι.spill ι₀ σ.store f) := by
  have hstart : spillStart f = f := if_neg (by omega)
  refine Filling.indexed_spill (i := 0) (h.buffer (Set.subset_insert _ _))
    (hf.trans (by decide)) (fun b hb hlt => by omega) fun hhas j b hc => ?_
  have hb : f ≤ b := by
    have := Slot.data.inj (Option.some.inj hc)
    omega
  have hstored : σ.store (ι.sector (.table 0)) = ι.table (.table 0) :=
    h.indexed.stored trivial hhas (by simp)
  rw [Index.sector_spill_data, hstart, if_pos hb, ← h.rest b hb, hstored]
  exact h.indexed.shown hc hhas

end Spill

/-! ### `allocate_blocks` -/

/-- What a part of `allocate_blocks` that goes up to data block `hi` leaves. -/
structure Fills (own : Set BlockSector) (inv : FsState → Prop) (σ₀ : FsState) (ι₀ : Index)
    (hi blocks : ℕ) (ok : Bool) (d : Sector) (allocated f a : ℕ) (σ : FsState) (ι : Index) : Prop where
  inode : d = ι.table .root
  stops : Stops σ₀ ι₀ 0 hi blocks ok allocated f a σ
  filling : ∃ buf, Filling own inv σ₀ ι₀ buf f a σ ι ∧ (ok = true → buf = {.root})
  disk : ok = false → Indexed own {.root} σ (ι.spill ι₀ σ.store f)

section Allocate

variable {bitmapWrite : Kernel Bool} {own : Set BlockSector} {inv : FsState → Prop}
  {σ₀ : FsState} {ι₀ : Index} {blocks : ℕ}

theorem Fills.done {hi f a : ℕ} {d : Sector} {allocated : ℕ} {σ : FsState} {ι : Index}
    (h : Fills own inv σ₀ ι₀ hi blocks true d allocated f a σ ι) :
    Filling own inv σ₀ ι₀ {.root} f a σ ι ∧ Paid σ₀ a σ ∧ (f = hi ∨ blocks ≤ allocated) := by
  obtain ⟨buf, hf, hbuf⟩ := h.filling
  obtain rfl := hbuf rfl
  exact ⟨hf, h.stops.done rfl⟩

theorem Fills.weaken {hi hi' f a : ℕ} {ok : Bool} {d : Sector} {allocated : ℕ} {σ : FsState}
    {ι : Index} (h : Fills own inv σ₀ ι₀ hi blocks ok d allocated f a σ ι) (hle : hi ≤ hi')
    (hdone : ok = true → f = hi → hi = hi' ∨ blocks ≤ allocated) :
    Fills own inv σ₀ ι₀ hi' blocks ok d allocated f a σ ι :=
  { h with stops := h.stops.weaken le_rfl hle hdone }

/-- The direct part. -/
theorem allocateDirect_fills (hbw : BitmapServes bitmapWrite own inv) (hopen : σ₀.freeMapFile ≠ none)
    (h : Indexed own {.root} σ₀ ι₀) (hr : Reserved own σ₀) (hinv : inv σ₀) :
    Returns (fillEntries bitmapWrite blocks directIndices (ι₀.table .root) 0) σ₀ fun r σ =>
      ∃ f a ι, Fills own inv σ₀ ι₀ 12 blocks r.1 r.2.1 r.2.2 f a σ ι := by
  refine (fillEntries_fills hbw hopen directIndices (k := 0) (Filling.refl h hr hinv) (fun i => rfl)
    ι₀.has_root rfl directIndices_range directIndices_child rfl (Nat.zero_le _)).mono
    fun r σ h' => ?_
  obtain ⟨f, a, ι, hf, -, htab, hstops, -⟩ := h'
  refine ⟨f, a, ι, htab, hstops, ⟨_, hf, fun _ => rfl⟩, fun hok => hf.indexed_spill_of_le ?_⟩
  have := hstops.le_hi
  omega

/-- The indirect part. -/
theorem allocateIndirect_fills (hbw : BitmapServes bitmapWrite own inv)
    (hopen : σ₀.freeMapFile ≠ none) {allocated a : ℕ} {σ : FsState} {ι : Index}
    (h : Filling own inv σ₀ ι₀ {.root} 12 a σ ι) (hpaid : Paid σ₀ a σ)
    (hcount : allocated = (ι₀.empties 12).card) (hmore : allocated < blocks) :
    Returns (allocateIndirect bitmapWrite blocks (ι.table .root) allocated) σ fun r σ' =>
      ∃ f a' ι', Fills own inv σ₀ ι₀ 140 blocks r.1 r.2.1 r.2.2 f a' σ' ι' := by
  have hchild : Slot.root.child 12 = some .indirect := by simp [Slot.child]
  unfold allocateIndirect
  refine (openTable_fills hbw hopen h hpaid ι.has_root rfl hchild trivial le_rfl).seq
    fun table σ₁ h₁ => ?_
  obtain ⟨rfl, hzero, h₁, hshort⟩ | ⟨a₁, ι₁, rfl, hhas, h₁, hpaid₁, htab₁, hother₁, hsector₁⟩ := h₁
  · dsimp only
    rw [returns_pure]
    have hnot : ¬ι.Has .indirect := fun hhas => (hhas.resolve_left (by simp)) hzero
    have hdata : ι₀.sector (.data 12) = 0 := by
      rw [← h.rest _ le_rfl]
      exact h.indexed.closed (p := .indirect) (i := 0) rfl hnot
    exact ⟨12, a, ι, rfl, ⟨hcount, hmore.le, Nat.zero_le _, by omega, (fun hok => by cases hok),
      fun _ => ⟨hmore, by omega, hdata, hshort⟩⟩, ⟨_, h₁, (fun hok => by cases hok)⟩,
      fun _ => h₁.indexed_spill_of_le (by omega)⟩
  · dsimp only [readSector]
    rw [bind_assoc, returns_get_bind, pure_bind]
    refine (fillTable_fills hbw hopen h₁ hpaid₁ hhas trivial (by simp) (fun j => rfl) hcount
      hmore.le).seq fun r σ₂ h₂ => ?_
    obtain ⟨f, a₂, ι₂, hf, hsame, htab, hstops, -⟩ := h₂
    obtain ⟨ok, indirect, allocated₂⟩ := r
    dsimp only [writeSector] at htab hstops ⊢
    have hhas₂ : ι₂.Has .indirect := hsame.has trivial hhas
    have hsave := hf.save hbw.stable hhas₂ (by simp) trivial
    have hbuf : insert Slot.indirect {Slot.root} \ {Slot.indirect} = ({.root} : Set Slot) := by
      rw [Set.insert_sdiff_of_mem _ (Set.mem_singleton _)]
      exact Set.sdiff_singleton_eq_self (by simp)
    rw [hbuf, ← htab, hsame.sector (s := .indirect) trivial] at hsave
    rw [returns_modify_bind, returns_pure]
    have hinode : (ι.table .root).setIndirect (ι₁.sector .indirect) = ι₂.table .root := by
      rw [hsame.table (s := .root) trivial (by simp), htab₁]
      rfl
    have hle := hstops.le_hi
    exact ⟨f, a₂, ι₂, hinode, ⟨hstops.count, hstops.le, Nat.zero_le _, hle, hstops.done, hstops.failed⟩,
      ⟨_, hsave, fun _ => rfl⟩, fun _ => hsave.indexed_spill_of_le (by omega)⟩

/-- The doubly indirect part. -/
theorem allocateDoubly_fills (hbw : BitmapServes bitmapWrite own inv)
    (hopen : σ₀.freeMapFile ≠ none) {allocated a : ℕ} {σ : FsState} {ι : Index}
    (h : Filling own inv σ₀ ι₀ {.root} 140 a σ ι) (hpaid : Paid σ₀ a σ)
    (hcount : allocated = (ι₀.empties 140).card) (hmore : allocated < blocks) :
    Returns (allocateDoubly bitmapWrite blocks (ι.table .root) allocated) σ fun r σ' =>
      ∃ f a' ι', Fills own inv σ₀ ι₀ capacity blocks r.1 r.2.1 r.2.2 f a' σ' ι' := by
  have hcapacity : capacity = 16524 := rfl
  have hchild : Slot.root.child 13 = some .doubly := by simp [Slot.child]
  unfold allocateDoubly
  refine (openTable_fills hbw hopen h hpaid ι.has_root rfl hchild trivial le_rfl).seq
    fun table σ₁ h₁ => ?_
  obtain ⟨rfl, hzero, h₁, hshort⟩ | ⟨a₁, ι₁, rfl, hhas, h₁, hpaid₁, htab₁, hother₁, hsector₁⟩ := h₁
  · dsimp only
    rw [returns_pure]
    have hnot : ¬ι.Has .doubly := fun hhas => (hhas.resolve_left (by simp)) hzero
    have hnot' : ¬ι.Has (.table 0) := fun hhas =>
      hnot (h.indexed.has_parent (p := .doubly) (i := 0) rfl hhas)
    have hdata : ι₀.sector (.data 140) = 0 := by
      rw [← h.rest _ le_rfl]
      exact h.indexed.closed (p := .table 0) (i := 0) rfl hnot'
    exact ⟨140, a, ι, rfl, ⟨hcount, hmore.le, Nat.zero_le _, by omega, (fun hok => by cases hok),
      fun _ => ⟨hmore, by omega, hdata, hshort⟩⟩, ⟨_, h₁, (fun hok => by cases hok)⟩,
      fun _ => h₁.indexed_spill_of_le le_rfl⟩
  · have hrange : (List.finRange 128).map Fin.val = List.range' 0 128 := by
      rw [List.map_coe_finRange_eq_range, List.range_eq_range']
    have hbuf : insert Slot.doubly {Slot.root} \ {Slot.doubly} = ({.root} : Set Slot) := by
      rw [Set.insert_sdiff_of_mem _ (Set.mem_singleton _)]
      exact Set.sdiff_singleton_eq_self (by simp)
    dsimp only [readSector]
    rw [bind_assoc, returns_get_bind, pure_bind, h₁.indexed.stored (s := .doubly) trivial hhas (by simp)]
    have hmem : Slot.doubly ∈ (insert .doubly {.root} : Set Slot) := Set.mem_insert _ _
    refine (fillTables_fills hbw hopen hmem (fun k => by simp) (List.finRange 128)
      (k := 0) (h₁.buffer (Set.subset_insert Slot.doubly _)) hpaid₁ hhas hrange hcount hmore.le).seq
      fun r σ₂ h₂ => ?_
    obtain ⟨f, a₂, ι₂, htab, hroot₂, hsector₂, hstops, hok, hfail⟩ := h₂
    obtain ⟨ok, doubly, allocated₂⟩ := r
    dsimp only [writeSector] at htab hstops hok hfail ⊢
    have hhas₂ : ι₂.Has .doubly := by
      refine .inr ?_
      rw [hsector₂]
      exact hhas.resolve_left (by simp)
    have hinode : (ι.table .root).setDoublyIndirect (ι₁.sector .doubly) = ι₂.table .root := by
      rw [hroot₂, htab₁]
      rfl
    rw [returns_modify_bind, returns_pure]
    have hle := hstops.le_hi
    cases ok with
    | true =>
      have hsave := (hok rfl).save hbw.stable hhas₂ (by simp) trivial
      rw [hbuf, ← htab, hsector₂] at hsave
      exact ⟨f, a₂, ι₂, hinode, ⟨hstops.count, hstops.le, Nat.zero_le _, hle, hstops.done,
        hstops.failed⟩, ⟨_, hsave, fun _ => rfl⟩, (fun hok => by cases hok)⟩
    | false =>
      obtain ⟨i, hspilt⟩ := hfail rfl
      have hi := i.isLt
      have hge := hspilt.ge
      have hlt := hspilt.lt
      have hsave := hspilt.filling.save hbw.stable hhas₂ (by simp) trivial
      have hbuf' : insert (Slot.table i) (insert Slot.doubly {Slot.root}) \ {Slot.doubly} =
          (insert (.table i) {.root} : Set Slot) := by
        rw [Set.insert_sdiff_of_notMem _ (by simp), hbuf]
      rw [hbuf', ← htab, hsector₂] at hsave
      have hstart : spillStart f = 140 + 128 * i.val := by
        unfold spillStart
        split_ifs <;> omega
      refine ⟨f, a₂, ι₂, hinode, ⟨hstops.count, hstops.le, Nat.zero_le _, hle, hstops.done,
        hstops.failed⟩, ⟨_, hsave, (fun hok => by cases hok)⟩, fun _ => ?_⟩
      refine hsave.indexed_spill (by omega) (fun b hb hb' => ?_) fun hhasi j b hc => ?_
      · refine ⟨⟨b - (140 + 128 * i.val), by omega⟩, ?_⟩
        rw [Slot.child]
        congr 2
        show 140 + 128 * i.val + (b - (140 + 128 * i.val)) = b
        omega
      · have hb := Slot.data.inj (Option.some.inj hc)
        have hne : ι₂.sector (.table i) ≠ ι₁.sector .doubly := by
          rw [← hsector₂]
          exact fun he => absurd (hspilt.filling.indexed.distinct hhasi hhas₂ he) (by simp)
        have hdisk := hspilt.disk hhasi j
        rw [Index.sector_spill_data, hstart, if_pos (by omega), ← hb, ← hdisk]
        show (Function.update σ₂.store _ _ _).word j = _
        rw [Function.update_of_ne hne]

/-- **`allocate_blocks`** fills the entries in order: it ends at as many new blocks as it was asked
for or at the end of the index, or at the first request for a sector that is not met. -/
theorem allocateBlocksWith_fills (hbw : BitmapServes bitmapWrite own inv)
    (hopen : σ₀.freeMapFile ≠ none) (h : Indexed own {.root} σ₀ ι₀) (hr : Reserved own σ₀)
    (hinv : inv σ₀) : Returns (allocateBlocksWith bitmapWrite (ι₀.table .root) blocks) σ₀ fun r σ =>
      ∃ allocated f a ι, Fills own inv σ₀ ι₀ capacity blocks r.1 r.2 allocated f a σ ι := by
  have hcapacity : capacity = 16524 := rfl
  unfold allocateBlocksWith
  refine (allocateDirect_fills hbw hopen h hr hinv).seq fun r σ₁ h₁ => ?_
  obtain ⟨f₁, a₁, ι₁, h₁⟩ := h₁
  obtain ⟨ok₁, d₁, allocated₁⟩ := r
  dsimp only at h₁ ⊢
  cases ok₁ with
  | false =>
    rw [if_pos rfl, returns_pure]
    exact ⟨_, f₁, a₁, ι₁, h₁.weaken (by omega) (fun hok => by cases hok)⟩
  | true =>
    obtain ⟨hf₁, hpaid₁, hend₁⟩ := h₁.done
    rw [if_neg (by simp), h₁.inode]
    split_ifs with hmore₁
    · obtain rfl := hend₁.resolve_right (not_le.2 hmore₁)
      refine (allocateIndirect_fills hbw hopen hf₁ hpaid₁ h₁.stops.count hmore₁).seq fun r σ₂ h₂ => ?_
      obtain ⟨f₂, a₂, ι₂, h₂⟩ := h₂
      obtain ⟨ok₂, d₂, allocated₂⟩ := r
      dsimp only at h₂ ⊢
      cases ok₂ with
      | false =>
        rw [if_pos rfl, returns_pure]
        exact ⟨_, f₂, a₂, ι₂, h₂.weaken (by omega) (fun hok => by cases hok)⟩
      | true =>
        obtain ⟨hf₂, hpaid₂, hend₂⟩ := h₂.done
        rw [if_neg (by simp), h₂.inode]
        split_ifs with hmore₂
        · obtain rfl := hend₂.resolve_right (not_le.2 hmore₂)
          refine (allocateDoubly_fills hbw hopen hf₂ hpaid₂ h₂.stops.count hmore₂).seq fun r σ₃ h₃ => ?_
          obtain ⟨f₃, a₃, ι₃, h₃⟩ := h₃
          rw [returns_pure]
          exact ⟨_, f₃, a₃, ι₃, h₃⟩
        · rw [returns_pure]
          refine ⟨_, f₂, a₂, ι₂, { h₂ with inode := rfl }.weaken (by omega) fun _ _ => ?_⟩
          exact .inr (not_lt.1 hmore₂)
    · rw [returns_pure]
      refine ⟨_, f₁, a₁, ι₁, { h₁ with inode := rfl }.weaken (by omega) fun _ _ => ?_⟩
      exact .inr (not_lt.1 hmore₁)

end Allocate

end Filesys
end CS162

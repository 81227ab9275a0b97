/-
# `free_blocks` on any index

`projects1-3/src/filesys/inode.c`, lines 241-308, and `free_map_release` of
`free-map.c`.

`free_blocks` goes through the entries for the data blocks from the first on and
releases what it finds.  `Emptying` says how far it is: the blocks below `f` are
released, no block below `g` is left in the index, and those from `g` on are as
they were.  Between `f` and `g` are the blocks that are lost when an index block
under the doubly indirect block is released with entries left in it.
`freeBlocksWith_empties` says where it ends: at as many blocks as it was asked
for, or with nothing left.
-/

import CS162.Filesys.Index

namespace CS162
namespace Filesys

open CS162.Basis

/-- The data blocks below `f` that are there. -/
def Index.filled (ι : Index) (f : ℕ) : Finset ℕ :=
  (Finset.range f).filter fun b => ι.sector (.data b) ≠ 0

theorem Index.filled_succ_of_eq {ι : Index} {f : ℕ} (h : ι.sector (.data f) = 0) :
    ι.filled (f + 1) = ι.filled f := by
  unfold Index.filled
  rw [Finset.range_add_one, Finset.filter_insert, if_neg (not_not.2 h)]

theorem Index.card_filled_succ {ι : Index} {f : ℕ} (h : ι.sector (.data f) ≠ 0) :
    (ι.filled (f + 1)).card = (ι.filled f).card + 1 := by
  unfold Index.filled
  rw [Finset.range_add_one, Finset.filter_insert, if_pos h, Finset.card_insert_of_notMem]
  simp

/-- Blocks that are not there do not count. -/
theorem Index.filled_eq {ι : Index} {f f' : ℕ} (hle : f ≤ f')
    (h : ∀ b, f ≤ b → b < f' → ι.sector (.data b) = 0) : ι.filled f' = ι.filled f := by
  induction f', hle using Nat.le_induction with
  | base => rfl
  | succ m hm ih =>
    rw [Index.filled_succ_of_eq (h m hm (Nat.lt_succ_self m))]
    exact ih fun b hb hb' => h b hb (hb'.trans (Nat.lt_succ_self m))

section Release

variable {bitmapWrite : Kernel Bool} {own : Set BlockSector} {inv : FsState → Prop} {σ : FsState}

/-- **`free_map_release (sector, 1)`** of a sector that is allocated. -/
theorem freeMapReleaseWith_returns (hbw : BitmapWrites bitmapWrite own inv) (h : inv σ)
    (hopen : σ.freeMapFile ≠ none) {sector : BlockSector} (hrange : sector.toNat < σ.freeMap.bitCnt)
    (htaken : σ.freeMap.bits sector.toNat = true) :
    Returns (freeMapReleaseWith bitmapWrite sector 1) σ fun _ σ' => inv σ' ∧ Same σ σ' ∧
      σ'.freeMap = σ.freeMap.setMultiple sector.toNat 1 false ∧
      ∀ x ∉ own, σ'.store x = σ.store x := by
  set σ₁ : FsState := { σ with freeMap := σ.freeMap.setMultiple sector.toNat 1 false }
  have hsame : Same σ σ₁ := ⟨rfl, rfl, rfl, rfl, rfl, id⟩
  have hinv : inv σ₁ := hbw.stable h hsame fun _ _ => rfl
  have hall : σ.freeMap.InRange sector.toNat 1 ∧ σ.freeMap.all sector.toNat 1 = true :=
    ⟨hrange, (Bitmap.all_one _ _).trans htaken⟩
  unfold freeMapReleaseWith
  rw [returns_get_bind, if_pos hall, returns_set_bind]
  refine (hbw.write hinv hopen).seq fun written σ₂ h₂ => returns_pure.2 ?_
  obtain ⟨-, hinv₂, hsame₂, hmap, hstore⟩ := h₂
  exact ⟨hinv₂, hsame.trans hsame₂, hmap, hstore⟩

end Release

/-- `free_blocks` has turned the index `ι₁` into `ι`: the data blocks below `f` are
released, none below `g` is left, and those from `g` on are as they were. -/
structure Emptying (own : Set BlockSector) (inv : FsState → Prop) (σ₁ : FsState) (ι₁ : Index)
    (buf : Set Slot) (f g : ℕ) (σ : FsState) (ι : Index) : Prop where
  indexed : Indexed own buf σ ι
  inv : inv σ
  same : Same σ₁ σ
  keep : ∀ {s}, ι.Has s → ι.sector s = ι₁.sector s
  le : f ≤ g
  low : ∀ b < g, ι.sector (.data b) = 0
  high : ∀ b, g ≤ b → ι.sector (.data b) = ι₁.sector (.data b)
  bits : ∀ n, σ.freeMap.bits n = true ↔ σ₁.freeMap.bits n = true ∧
    ¬∃ s, ι₁.Has s ∧ ¬ι.Has s ∧ (∀ b, s = .data b → ¬(f ≤ b ∧ b < g)) ∧ (ι₁.sector s).toNat = n
  outside : ∀ x ∉ own, (∀ s, s.IsTable → s ≠ .root → ι₁.Has s → ι₁.sector s ≠ x) →
    σ.store x = σ₁.store x
  quiet : ∀ {s}, s.IsTable → s ≠ .root → ι₁.Has s → (f ≤ s.first ∨ s = .indirect ∧ ¬ι.Has .indirect) →
    σ.store (ι₁.sector s) = σ₁.store (ι₁.sector s)
  tail : ∀ j : Fin 512, 56 ≤ j.val → ι.table .root j = ι₁.table .root j

namespace Emptying

variable {own : Set BlockSector} {inv : FsState → Prop} {σ₁ σ σ' : FsState} {ι₁ ι : Index}
  {buf : Set Slot} {f f' g g' : ℕ} {p c : Slot} {i : Fin 128}

/-- Before the first entry. -/
theorem refl (h : Indexed own buf σ ι) (hinv : inv σ) : Emptying own inv σ ι buf 0 0 σ ι where
  indexed := h
  inv := hinv
  same := .refl σ
  keep _ := rfl
  le := le_rfl
  low b hb := absurd hb (Nat.not_lt_zero b)
  high _ _ := rfl
  bits _ := ⟨fun h => ⟨h, fun ⟨_, hs, hn, _⟩ => hn hs⟩, fun h => h.1⟩
  outside _ _ _ := rfl
  quiet _ _ _ _ := rfl
  tail _ _ := rfl

/-- What is there was there. -/
theorem has (h : Emptying own inv σ₁ ι₁ buf f g σ ι) {s : Slot} (hs : ι.Has s) : ι₁.Has s := by
  by_cases hroot : s = .root
  · exact .inl hroot
  · refine .inr ?_
    rw [← h.keep hs]
    exact hs.resolve_left hroot

/-- Fewer index blocks need be up to date. -/
theorem buffer (h : Emptying own inv σ₁ ι₁ buf f g σ ι) {buf' : Set Slot} (hbuf : buf ⊆ buf') :
    Emptying own inv σ₁ ι₁ buf' f g σ ι :=
  { h with indexed := h.indexed.buffer hbuf }

/-- Past entries that are `0`. -/
theorem advance (h : Emptying own inv σ₁ ι₁ buf f f σ ι) (hle : f ≤ f')
    (hzero : ∀ b, f ≤ b → b < f' → ι.sector (.data b) = 0) :
    Emptying own inv σ₁ ι₁ buf f' f' σ ι :=
  { h with
    le := le_rfl
    low := fun b hb => by
      rcases Nat.lt_or_ge b f with hlt | hge
      · exact h.low b hlt
      · exact hzero b hge hb
    high := fun b hb => h.high b (hle.trans hb)
    bits := fun n => by
      rw [h.bits]
      have hnone : ∀ m b : ℕ, ¬(m ≤ b ∧ b < m) := fun m b hb => absurd hb.2 (not_lt.2 hb.1)
      simp only [hnone]
    quiet := fun hst hroot hs hor => h.quiet hst hroot hs (hor.imp_left hle.trans) }

/-- **One node less.**  Of what was under it the blocks from `f'` on are lost. -/
theorem cut (h : Emptying own inv σ₁ ι₁ buf f f σ ι) (hp : ι.Has p) (hbuf : p ∈ buf)
    (hc : p.child i = some c) (hhas : ι.Has c)
    (hflat : ∀ j d, c.child j = some d → d.IsTable → ¬ι.Has d) (hinv : inv σ') (hsame : Same σ σ')
    (hmap : σ'.freeMap = σ.freeMap.setMultiple (ι.sector c).toNat 1 false)
    (hstore : ∀ x ∉ own, σ'.store x = σ.store x) (hle : f ≤ f') (hle' : f' ≤ g')
    (hrange : ∀ b, f ≤ b → (b < g' ↔ Slot.data b = c ∨ ∃ j, c.child j = some (.data b)))
    (hfreed : ∀ b, f ≤ b → (b < f' ↔ Slot.data b = c))
    (hind : c = .indirect → σ.store (ι₁.sector c) = σ₁.store (ι₁.sector c))
    (hown : ∀ {s}, ι₁.Has s → ι₁.sector s ∉ own) :
    Emptying own inv σ₁ ι₁ buf f' g' σ' (ι.cut p i c) := by
  have hcroot := Slot.child_ne_root hc
  have hcut : ∀ {s}, (ι.cut p i c).Has s ↔ ι.Has s ∧ s ≠ c ∧ ∀ j, c.child j ≠ some s :=
    Index.has_cut hcroot
  have hset : ∀ n, σ'.freeMap.bits n = true ↔ σ.freeMap.bits n = true ∧ n ≠ (ι.sector c).toNat := by
    intro n
    rw [hmap, Bitmap.bits_setMultiple_one]
    split_ifs with hn
    · simp [hn]
    · simp [hn]
  have hle'' : f ≤ g' := hle.trans hle'
  refine ⟨h.indexed.cut hp hbuf hc hhas hflat hmap (fun x hx _ => hstore x hx), hinv,
    h.same.trans hsame, fun {s} hs => ?_, hle', fun b hb => ?_, fun b hb => ?_, fun n => ?_,
    fun x hx hno => (hstore x hx).trans (h.outside x hx hno), fun {s} hst hroot hs hor => ?_,
    fun j hj => ?_⟩
  · have hs' := hcut.1 hs
    rw [Index.sector_cut hs'.2.1 hs'.2.2]
    exact h.keep hs'.1
  · rcases Nat.lt_or_ge b f with hlt | hge
    · rcases Index.sector_cut_cases (ι := ι) (p := p) (i := i) (c := c) (s := .data b) with he | he
      · exact he
      · rw [he]
        exact h.low b hlt
    · exact Index.sector_cut_eq_zero ((hrange b hge).1 hb)
  · have hno : ¬(Slot.data b = c ∨ ∃ j, c.child j = some (.data b)) :=
      fun hor => absurd ((hrange b (hle''.trans hb)).2 hor) (not_lt.2 hb)
    rw [not_or, not_exists] at hno
    rw [Index.sector_cut hno.1 hno.2]
    exact h.high b (hle''.trans hb)
  · rw [hset, h.bits]
    constructor
    · rintro ⟨⟨hn, hold⟩, hne⟩
      refine ⟨hn, ?_⟩
      rintro ⟨s, hs, hs', hlost, rfl⟩
      by_cases hιs : ι.Has s
      · have hor : s = c ∨ ∃ j, c.child j = some s := by
          by_contra hno
          rw [not_or, not_exists] at hno
          exact hs' (hcut.2 ⟨hιs, hno.1, hno.2⟩)
        rcases hor with rfl | ⟨j, hj⟩
        · rw [h.keep hιs] at hne
          exact hne rfl
        · -- a block that is lost, not released
          cases s with
          | data b =>
            have hfb : f ≤ b := by
              by_contra hlt
              exact (Index.has_data.1 hιs) (h.low b (not_le.1 hlt))
            refine hlost b rfl ⟨?_, (hrange b hfb).2 (.inr ⟨j, hj⟩)⟩
            by_contra hlt
            exact Slot.child_ne_self hj ((hfreed b hfb).1 (not_le.1 hlt))
          | _ => exact hflat j _ hj trivial hιs
      · exact hold ⟨s, hs, hιs, fun b _ hb => absurd hb.2 (not_lt.2 hb.1), rfl⟩
    · rintro ⟨hn, hnew⟩
      refine ⟨⟨hn, ?_⟩, ?_⟩
      · rintro ⟨s, hs, hs', -, rfl⟩
        refine hnew ⟨s, hs, fun hιs => hs' (hcut.1 hιs).1, ?_, rfl⟩
        rintro b rfl hb
        have hfb : f ≤ b := hle.trans hb.1
        rw [Index.has_data] at hs hs'
        rw [h.high b hfb] at hs'
        exact hs' hs
      · rintro rfl
        refine hnew ⟨c, h.has hhas, fun hιc => (hcut.1 hιc).2.1 rfl, ?_, by rw [h.keep hhas]⟩
        rintro b rfl hb
        exact absurd ((hfreed b (hle.trans hb.1)).2 rfl) (not_lt.2 hb.1)
  · have hkeep : σ'.store (ι₁.sector s) = σ.store (ι₁.sector s) := hstore _ (hown hs)
    rw [hkeep]
    rcases hor with hfirst | ⟨rfl, hgone⟩
    · exact h.quiet hst hroot hs (.inl (hle.trans hfirst))
    · by_cases hιs : ι.Has .indirect
      · have hci : c = .indirect := by
          by_contra hne
          refine hgone (hcut.2 ⟨hιs, fun he => hne he.symm, fun j hj => ?_⟩)
          have hparent := Slot.parent_eq_of_child hj
          obtain rfl : .root = c := (Prod.mk.inj (Option.some.inj hparent)).1
          exact hcroot rfl
        subst hci
        exact hind rfl
      · exact h.quiet hst hroot hs (.inr ⟨rfl, hιs⟩)
  · rw [← h.tail j hj]
    by_cases hroot : .root = p
    · subst hroot
      rw [Index.table_cut_self]
      exact Growing.tail_setWord (Growing.root_child_lt hc) 0 hj
    · rw [Index.table_cut hroot]

/-- Writing an index block back from its buffer. -/
theorem save (h : Emptying own inv σ₁ ι₁ buf f g σ ι)
    (hbw : ∀ {σ σ'}, inv σ → Same σ σ' → (∀ x ∈ own, σ'.store x = σ.store x) → inv σ')
    (hp : ι.Has p) (hroot : p ≠ .root) (htable : p.IsTable) (hfirst : p.first < f)
    (hdistinct : ∀ {s s'}, ι₁.Has s → ι₁.Has s' → ι₁.sector s = ι₁.sector s' → s = s') :
    Emptying own inv σ₁ ι₁ (buf \ {p}) f g
      { σ with store := Function.update σ.store (ι.sector p) (ι.table p) } ι :=
  { h with
    indexed := h.indexed.save hp
    inv := hbw h.inv ⟨rfl, rfl, rfl, rfl, rfl, id⟩ fun x hx => by
      refine Function.update_of_ne ?_ _ _
      rintro rfl
      exact h.indexed.notOwn hp hx
    same := h.same.trans ⟨rfl, rfl, rfl, rfl, rfl, id⟩
    outside := fun x hx hno => by
      have hne := hno p htable hroot (h.has hp)
      rw [← h.keep hp] at hne
      show Function.update σ.store _ _ x = _
      rw [Function.update_of_ne hne.symm]
      exact h.outside x hx hno
    quiet := fun {s} hst hsroot hs hor => by
      have hsp : s ≠ p := by
        rintro rfl
        rcases hor with hle | ⟨rfl, hgone⟩
        · exact absurd hfirst (not_lt.2 hle)
        · exact hgone hp
      show Function.update σ.store _ _ (ι₁.sector s) = _
      rw [h.keep hp, Function.update_of_ne fun he => hsp (hdistinct hs (h.has hp) he)]
      exact h.quiet hst hsroot hs hor }

end Emptying

/-! ### The loops -/

/-- Where a loop of `free_blocks` that has cleared the entries below `lo` goes on to: `hi` or as
many blocks as it was asked for, and no further. -/
structure Frees (ι₁ : Index) (lo hi blocks freed f : ℕ) : Prop where
  count : freed = (ι₁.filled f).card
  le : freed ≤ blocks
  lo_le : lo ≤ f
  le_hi : f ≤ hi
  done : f = hi ∨ blocks ≤ freed
  least : ∀ m < f, (ι₁.filled m).card < blocks

theorem Frees.lt {ι₁ : Index} {lo hi blocks freed f : ℕ} (h : Frees ι₁ lo hi blocks freed f)
    (hlo : (ι₁.filled lo).card < blocks) (hhi : lo < hi) : lo < f := by
  refine lt_of_le_of_ne h.lo_le ?_
  rintro rfl
  have hcount := h.count
  rcases h.done with rfl | hge
  · exact lt_irrefl _ hhi
  · omega

section Loops

variable {bitmapWrite : Kernel Bool} {own : Set BlockSector} {inv : FsState → Prop}
  {σ₁ : FsState} {ι₁ : Index} {buf buf₁ : Set Slot} {blocks : ℕ}

/-- **Clearing a table.**  Entry `j` of `p` stands for data block `base + j`.  By
induction on the entries to come. -/
theorem clearEntries_empties (hbw : BitmapWrites bitmapWrite own inv) (hopen : σ₁.freeMapFile ≠ none)
    (h₁ : Indexed own buf₁ σ₁ ι₁) {p : Slot} {base : ℕ} (is : List (Fin 128)) :
    ∀ {k n freed : ℕ} {σ : FsState} {ι : Index},
      Emptying own inv σ₁ ι₁ buf (base + k) (base + k) σ ι → ι.Has p → p ∈ buf →
      is.map Fin.val = List.range' k n → (∀ j ∈ is, p.child j = some (.data (base + j.val))) →
      freed = (ι₁.filled (base + k)).card → freed ≤ blocks →
      (∀ m < base + k, (ι₁.filled m).card < blocks) →
      Returns (clearEntries bitmapWrite blocks is (ι.table p) freed) σ fun r σ' =>
        ∃ f ι', Emptying own inv σ₁ ι₁ buf f f σ' ι' ∧ SameTables p ι ι' ∧ r.1 = ι'.table p ∧
          Frees ι₁ (base + k) (base + k + n) blocks r.2 f ∧ ∀ x ∉ own, σ'.store x = σ.store x := by
  induction is with
  | nil =>
    intro k n freed σ ι h hp hbuf his _ hcount hle hleast
    have hn : 0 = n := by simpa using congrArg List.length his
    subst hn
    rw [clearEntries, returns_pure]
    exact ⟨_, ι, h, .refl p ι, rfl, ⟨hcount, hle, le_rfl, le_rfl, .inl rfl, hleast⟩, fun _ _ => rfl⟩
  | cons e is ih =>
    intro k n freed σ ι h hp hbuf his hchild hcount hle hleast
    obtain ⟨m, rfl, he, his'⟩ := map_val_cons his
    have hchild' : ∀ j ∈ is, p.child j = some (.data (base + j.val)) :=
      fun j hj => hchild j (List.mem_cons_of_mem _ hj)
    have hce := hchild e List.mem_cons_self
    rw [he] at hce
    have hword := h.indexed.shown hce hp
    have hhigh := h.high _ le_rfl
    have hend : base + k + (m + 1) = base + (k + 1) + m := by omega
    rw [hend, clearEntries]
    split_ifs with hmore hentry
    · -- a block is released
      have hleast' : ∀ m < base + (k + 1), (ι₁.filled m).card < blocks := by
        intro m hm
        rcases Nat.lt_succ_iff_lt_or_eq.1 (show m < base + k + 1 by omega) with hlt | rfl
        · exact hleast m hlt
        · omega
      rw [hword] at hentry ⊢
      have hhas : ι.Has (.data (base + k)) := .inr hentry
      have hopenσ : σ.freeMapFile ≠ none := by rw [h.same.freeMapFile]; exact hopen
      refine (freeMapReleaseWith_returns hbw h.inv hopenσ (h.indexed.inRange hhas)
        (h.indexed.taken hhas)).seq fun _ σ₂ h₂ => ?_
      obtain ⟨hinv, hsame, hmap, hstore⟩ := h₂
      have hg : Emptying own inv σ₁ ι₁ buf (base + (k + 1)) (base + (k + 1)) σ₂
          (ι.cut p e (.data (base + k))) := by
        refine h.cut hp hbuf hce hhas (fun j d hd => by cases hd) hinv hsame hmap hstore (by omega)
          le_rfl (fun b hb => ?_) (fun b hb => ?_) (by simp) h₁.notOwn
        · simp only [Slot.child, reduceCtorEq, exists_false, or_false, Slot.data.injEq]
          omega
        · rw [Slot.data.injEq]
          omega
      have hpc : p ≠ .data (base + k) := (Slot.child_ne_self hce).symm
      have htables : SameTables p ι (ι.cut p e (.data (base + k))) := by
        refine ⟨fun {s} hs => ?_, fun {s} _ hsp => Index.table_cut hsp⟩
        exact Index.sector_cut (Slot.isTable_iff.1 hs _) fun j hj => by cases hj
      have hcount' : freed + 1 = (ι₁.filled (base + (k + 1))).card := by
        rw [hhigh] at hentry
        rw [hcount, ← Nat.add_assoc, Index.card_filled_succ hentry]
      have hnext := ih hg (htables.has (Slot.isTable_of_child hce) hp) hbuf his' hchild' hcount' hmore
        hleast'
      rw [Index.table_cut_self] at hnext
      refine hnext.mono fun r σ₃ h₃ => ?_
      obtain ⟨f, ι', hf, hsame', htab, hfrees, hstore'⟩ := h₃
      exact ⟨f, ι', hf, htables.trans hsame', htab, { hfrees with lo_le := by have := hfrees.lo_le; omega },
        fun x hx => (hstore' x hx).trans (hstore x hx)⟩
    · -- an entry that is `0`
      have hleast' : ∀ m < base + (k + 1), (ι₁.filled m).card < blocks := by
        intro m hm
        rcases Nat.lt_succ_iff_lt_or_eq.1 (show m < base + k + 1 by omega) with hlt | rfl
        · exact hleast m hlt
        · omega
      rw [not_not, hword] at hentry
      have hg : Emptying own inv σ₁ ι₁ buf (base + (k + 1)) (base + (k + 1)) σ ι := by
        refine h.advance (by omega) fun b hb hb' => ?_
        obtain rfl : b = base + k := by omega
        exact hentry
      have hcount' : freed = (ι₁.filled (base + (k + 1))).card := by
        rw [hhigh] at hentry
        rw [hcount, ← Nat.add_assoc, Index.filled_succ_of_eq hentry]
      refine (ih hg hp hbuf his' hchild' hcount' hle hleast').mono fun r σ₃ h₃ => ?_
      obtain ⟨f, ι', hf, hsame', htab, hfrees, hstore'⟩ := h₃
      exact ⟨f, ι', hf, hsame', htab, { hfrees with lo_le := by have := hfrees.lo_le; omega }, hstore'⟩
    · rw [returns_pure]
      exact ⟨_, ι, h, .refl p ι, rfl, ⟨hcount, hle, le_rfl, by omega, .inr (not_lt.1 hmore), hleast⟩,
        fun _ _ => rfl⟩

/-- Reading an index block and clearing it. -/
theorem clearTable_empties (hbw : BitmapWrites bitmapWrite own inv) (hopen : σ₁.freeMapFile ≠ none)
    (h₁ : Indexed own buf₁ σ₁ ι₁) {p : Slot} {base freed : ℕ} {σ : FsState} {ι : Index}
    (h : Emptying own inv σ₁ ι₁ buf base base σ ι) (hp : ι.Has p) (hpt : p.IsTable) (hbuf : p ∉ buf)
    (hchild : ∀ j, p.child j = some (.data (base + j.val)))
    (hcount : freed = (ι₁.filled base).card) (hle : freed ≤ blocks)
    (hleast : ∀ m < base, (ι₁.filled m).card < blocks) :
    Returns (clearEntries bitmapWrite blocks (List.finRange 128) (σ.store (ι.sector p)) freed) σ
      fun r σ' => ∃ f ι', Emptying own inv σ₁ ι₁ (insert p buf) f f σ' ι' ∧ SameTables p ι ι' ∧
        r.1 = ι'.table p ∧ Frees ι₁ base (base + 128) blocks r.2 f ∧
        ∀ x ∉ own, σ'.store x = σ.store x := by
  rw [h.indexed.stored hpt hp hbuf]
  have hrange : (List.finRange 128).map Fin.val = List.range' 0 128 := by
    rw [List.map_coe_finRange_eq_range, List.range_eq_range']
  exact clearEntries_empties hbw hopen h₁ (List.finRange 128) (k := 0)
    (h.buffer (Set.subset_insert p buf)) hp (Set.mem_insert p buf) hrange (fun j _ => hchild j) hcount hle
    hleast

/-- The loop over the doubly indirect block ends where enough blocks are released. -/
theorem clearTables_of_le {is : List (Fin 128)} {doubly : Sector} {freed : ℕ} (h : blocks ≤ freed) :
    clearTables bitmapWrite blocks is doubly freed = pure (doubly, freed) := by
  cases is with
  | nil => rfl
  | cons i is => rw [clearTables, if_neg (not_lt.2 h)]

/-- What the loop over the doubly indirect block did to the index blocks under the entries `is` of
`ι`: those that it went through are gone, their first entry is `0` on the disk, and nothing else was
written. -/
structure Clears (own : Set BlockSector) (ι : Index) (is : List (Fin 128)) (f : ℕ) (σ σ' : FsState)
    (ι' : Index) : Prop where
  gone : ∀ j ∈ is, (Slot.table j).first < f → ¬ι'.Has (.table j)
  first : ∀ j ∈ is, (Slot.table j).first < f → ι.Has (.table j) →
    (σ'.store (ι.sector (.table j))).word 0 = 0
  outside : ∀ x ∉ own, (∀ j ∈ is, ι.Has (.table j) → ι.sector (.table j) ≠ x) →
    σ'.store x = σ.store x

/-- **Releasing the index blocks under the doubly indirect block.**  By induction on
the entries to come. -/
theorem clearTables_empties (hbw : BitmapWrites bitmapWrite own inv) (hopen : σ₁.freeMapFile ≠ none)
    (h₁ : Indexed own buf₁ σ₁ ι₁) (hbuf : .doubly ∈ buf) (hno : ∀ i, .table i ∉ buf)
    (is : List (Fin 128)) :
    ∀ {k n freed : ℕ} {σ : FsState} {ι : Index},
      Emptying own inv σ₁ ι₁ buf (140 + 128 * k) (140 + 128 * k) σ ι → ι.Has .doubly →
      is.map Fin.val = List.range' k n → freed = (ι₁.filled (140 + 128 * k)).card → freed ≤ blocks →
      (∀ m < 140 + 128 * k, (ι₁.filled m).card < blocks) →
      Returns (clearTables bitmapWrite blocks is (ι.table .doubly) freed) σ fun r σ' =>
        ∃ f g ι', Emptying own inv σ₁ ι₁ buf f g σ' ι' ∧ r.1 = ι'.table .doubly ∧
          ι'.table .root = ι.table .root ∧ ι'.sector .doubly = ι.sector .doubly ∧
          (∀ {s}, ι'.Has s → ι.Has s) ∧
          Frees ι₁ (140 + 128 * k) (140 + 128 * (k + n)) blocks r.2 f ∧
          (r.2 < blocks → g = f ∧ ∀ j ∈ is, ¬ι'.Has (.table j)) ∧ Clears own ι is f σ σ' ι' := by
  induction is with
  | nil =>
    intro k n freed σ ι h hp his hcount hle hleast
    have hn : 0 = n := by simpa using congrArg List.length his
    subst hn
    rw [clearTables, returns_pure]
    exact ⟨_, _, ι, h, rfl, rfl, rfl, id, ⟨hcount, hle, le_rfl, le_rfl, .inl rfl, hleast⟩,
      fun _ => ⟨rfl, fun j hj => absurd hj List.not_mem_nil⟩,
      ⟨fun j hj => absurd hj List.not_mem_nil, fun j hj => absurd hj List.not_mem_nil,
        fun _ _ _ => rfl⟩⟩
  | cons e is ih =>
    intro k n freed σ ι h hp his hcount hle hleast
    obtain ⟨m, rfl, he, his'⟩ := map_val_cons his
    have hce : Slot.doubly.child e = some (.table e) := rfl
    have hword := h.indexed.shown hce hp
    have hend : 140 + 128 * (k + (m + 1)) = 140 + 128 * (k + 1 + m) := by omega
    have hnext : 140 + 128 * k + 128 = 140 + 128 * (k + 1) := by omega
    have hchild : ∀ j, (Slot.table e).child j = some (.data (140 + 128 * k + j.val)) := by
      intro j
      rw [Slot.child, he]
    -- the entries to come are behind this one
    have hlater : ∀ j ∈ is, 140 + 128 * (k + 1) ≤ (Slot.table j).first := by
      intro j hj
      have hmem : j.val ∈ List.range' (k + 1) m := his' ▸ List.mem_map_of_mem hj
      have hge := (List.mem_range'_1.1 hmem).1
      show _ ≤ 140 + 128 * j.val
      omega
    have hother : ∀ j ∈ is, j ≠ e := by
      rintro j hj rfl
      have hge : 140 + 128 * (k + 1) ≤ 140 + 128 * j.val := hlater j hj
      omega
    rw [clearTables, hword]
    split_ifs with hmore hentry
    · have hhas : ι.Has (.table e) := .inr hentry
      dsimp only [readSector]
      rw [bind_assoc, returns_get_bind, pure_bind]
      refine (clearTable_empties hbw hopen h₁ h hhas trivial (hno e) hchild hcount hle hleast).seq
        fun r σ₂ h₂ => ?_
      obtain ⟨f, ι₂, hf, hsame, htab, hfrees, hstore₂⟩ := h₂
      obtain ⟨indirect, freed₂⟩ := r
      dsimp only [writeSector] at htab hfrees ⊢
      have hhas₂ : ι₂.Has (.table e) := hsame.has trivial hhas
      have hdbl₂ : ι₂.Has .doubly := hsame.has trivial hp
      have hlt : 140 + 128 * k < f := hfrees.lt (by omega) (by omega)
      have hfirst : (Slot.table e).first < f := by
        rw [Slot.first, he]
        exact hlt
      have hsave := hf.save hbw.stable hhas₂ (by simp) trivial hfirst h₁.distinct
      have hbuf' : insert (.table e) buf \ {.table e} = buf := by
        rw [Set.insert_sdiff_of_mem buf (Set.mem_singleton _)]
        exact Set.sdiff_singleton_eq_self (hno e)
      rw [hbuf', ← htab, hsame.sector (s := .table e) trivial] at hsave
      rw [returns_modify_bind]
      set σ₃ : FsState :=
        { σ₂ with store := Function.update σ₂.store (ι.sector (.table e)) indirect }
      have hopen₃ : σ₃.freeMapFile ≠ none := by rw [hsave.same.freeMapFile]; exact hopen
      have hrange₃ := hsave.indexed.inRange hhas₂
      have htaken₃ := hsave.indexed.taken hhas₂
      rw [hsame.sector (s := .table e) trivial] at hrange₃ htaken₃
      refine (freeMapReleaseWith_returns hbw hsave.inv hopen₃ hrange₃ htaken₃).seq fun _ σ₄ h₄ => ?_
      obtain ⟨hinv₄, hsame₄, hmap₄, hstore₄⟩ := h₄
      rw [← hsame.sector (s := .table e) trivial] at hmap₄
      have hcut : Emptying own inv σ₁ ι₁ buf f (140 + 128 * (k + 1)) σ₄
          (ι₂.cut .doubly e (.table e)) := by
        have hle_hi := hfrees.le_hi
        refine hsave.cut hdbl₂ hbuf hce hhas₂ (fun j d hd hdt => ?_) hinv₄ hsame₄ hmap₄ hstore₄ le_rfl
          (by omega) (fun b hb => ?_) (fun b hb => ?_) (by simp) h₁.notOwn
        · obtain rfl := Option.some.inj hd
          exact hdt.elim
        · constructor
          · intro hb'
            refine .inr ⟨⟨b - (140 + 128 * k), by omega⟩, ?_⟩
            rw [hchild]
            congr 2
            show 140 + 128 * k + (b - (140 + 128 * k)) = b
            omega
          · rintro (hno | ⟨j, hj⟩)
            · cases hno
            · rw [hchild] at hj
              have := Slot.data.inj (Option.some.inj hj)
              omega
        · simp only [reduceCtorEq, iff_false]
          omega
      have hcroot : Slot.table e ≠ .root := by simp
      have hhascut : ∀ {s}, (ι₂.cut .doubly e (.table e)).Has s →
          ι₂.Has s ∧ s ≠ .table e ∧ ∀ j, (Slot.table e).child j ≠ some s :=
        fun hs => (Index.has_cut hcroot).1 hs
      have htabcut : (ι.table .doubly).setWord e 0 = (ι₂.cut .doubly e (.table e)).table .doubly := by
        rw [Index.table_cut_self, hsame.table (s := .doubly) trivial (by simp)]
      have hrootcut : (ι₂.cut .doubly e (.table e)).table .root = ι.table .root := by
        rw [Index.table_cut (by simp), hsame.table (s := .root) trivial (by simp)]
      have hdblcut : (ι₂.cut .doubly e (.table e)).sector .doubly = ι.sector .doubly := by
        rw [Index.sector_cut (by simp) (fun j hj => by cases hj), hsame.sector (s := .doubly) trivial]
      have hback : ∀ {s}, (ι₂.cut .doubly e (.table e)).Has s → ι.Has s := by
        intro s hs
        have hs₂ := (hhascut hs).1
        cases s with
        | data b =>
          rw [Index.has_data] at hs₂ ⊢
          have hb : f ≤ b := by
            by_contra hb
            exact hs₂ (hf.low b (not_le.1 hb))
          rw [hf.high b hb] at hs₂
          rwa [h.high b (hlt.le.trans hb)]
        | _ => exact (hsame.has_iff (by trivial)).1 hs₂
      have hgone : ¬(ι₂.cut .doubly e (.table e)).Has (.table e) := fun hs => (hhascut hs).2.1 rfl
      have hown : ι.sector (.table e) ∉ own := h.indexed.notOwn hhas
      have hzero : (σ₄.store (ι.sector (.table e))).word 0 = 0 := by
        have hself : σ₃.store (ι.sector (.table e)) = indirect := Function.update_self ..
        rw [hstore₄ _ hown, hself, htab, hf.indexed.shown (hchild 0) hhas₂]
        exact hf.low _ (by simpa using hlt)
      have hsector : ∀ j ∈ is, (ι₂.cut .doubly e (.table e)).sector (.table j) =
          ι.sector (.table j) := by
        intro j hj
        rw [Index.sector_cut (fun he => hother j hj (Slot.table.inj he)) (fun i hi => by cases hi),
          hsame.sector (s := .table j) trivial]
      have hstore : ∀ x ∉ own, ι.sector (.table e) ≠ x → σ₄.store x = σ.store x := by
        intro x hx hne
        rw [hstore₄ x hx, ← hstore₂ x hx]
        exact Function.update_of_ne hne.symm _ _
      rw [htabcut]
      by_cases hfull : blocks ≤ freed₂
      · -- enough blocks are released
        have hbelow : f ≤ 140 + 128 * (k + 1) := hfrees.le_hi.trans (by omega)
        rw [clearTables_of_le hfull, returns_pure]
        refine ⟨f, _, _, hcut, rfl, hrootcut, hdblcut, hback, ⟨hfrees.count, hfrees.le, hfrees.lo_le,
          hfrees.le_hi.trans (by omega), .inr hfull, hfrees.least⟩,
          fun hlt => absurd hfull (not_le.2 hlt), fun j hj hfj => ?_, fun j hj hfj _ => ?_,
          fun x hx hno => hstore x hx (hno e List.mem_cons_self hhas)⟩
        · rcases List.mem_cons.1 hj with rfl | hj
          · exact hgone
          · exact absurd hfj (not_lt.2 (hbelow.trans (hlater j hj)))
        · rcases List.mem_cons.1 hj with rfl | hj
          · exact hzero
          · exact absurd hfj (not_lt.2 (hbelow.trans (hlater j hj)))
      · obtain rfl : f = 140 + 128 * (k + 1) := by
          rw [← hnext]
          exact hfrees.done.resolve_right hfull
        have hdblcut' : (ι₂.cut .doubly e (.table e)).Has .doubly := by
          refine .inr ?_
          rw [hdblcut]
          exact hp.resolve_left (by simp)
        refine (ih hcut hdblcut' his' hfrees.count hfrees.le hfrees.least).mono fun r σ₅ h₅ => ?_
        obtain ⟨f, g, ι₅, hf₅, htab₅, hroot₅, hdbl₅, hback₅, hfrees₅, hgone₅, hclears₅⟩ := h₅
        rw [hend]
        have hlater₅ : ∀ {j}, j ∈ is → ι.Has (.table j) →
            (ι₂.cut .doubly e (.table e)).Has (.table j) := by
          intro j hj hs
          unfold Index.Has at hs ⊢
          rwa [hsector j hj]
        refine ⟨f, g, ι₅, hf₅, htab₅, hroot₅.trans hrootcut, hdbl₅.trans hdblcut,
          fun hs => hback (hback₅ hs), { hfrees₅ with lo_le := by have := hfrees₅.lo_le; omega },
          fun hlt => ⟨(hgone₅ hlt).1, fun j hj => ?_⟩, fun j hj hfj => ?_, fun j hj hfj hs => ?_,
          fun x hx hno => ?_⟩
        · rcases List.mem_cons.1 hj with rfl | hj
          · exact fun hs => hgone (hback₅ hs)
          · exact (hgone₅ hlt).2 j hj
        · rcases List.mem_cons.1 hj with rfl | hj
          · exact fun hs => hgone (hback₅ hs)
          · exact hclears₅.gone j hj hfj
        · rcases List.mem_cons.1 hj with rfl | hj
          · rw [hclears₅.outside _ hown fun i hi his he => ?_]
            · exact hzero
            · rw [hsector i hi] at he
              have hsi := hback his
              exact hother i hi (Slot.table.inj (h.indexed.distinct hsi hs he))
          · rw [← hsector j hj]
            exact hclears₅.first j hj hfj (hlater₅ hj hs)
        · rw [hclears₅.outside x hx fun j hj hs => ?_]
          · exact hstore x hx (hno e List.mem_cons_self hhas)
          · rw [hsector j hj]
            exact hno j (List.mem_cons_of_mem _ hj) (hback hs)
    · -- no index block here
      rw [not_not] at hentry
      have hnot : ¬ι.Has (.table e) := fun hhas => (hhas.resolve_left (by simp)) hentry
      have hzero : ∀ b, 140 + 128 * k ≤ b → b < 140 + 128 * (k + 1) → ι.sector (.data b) = 0 := by
        intro b hb hb'
        refine h.indexed.closed (p := .table e) (i := ⟨b - (140 + 128 * k), by omega⟩) ?_ hnot
        rw [hchild]
        congr 2
        show 140 + 128 * k + (b - (140 + 128 * k)) = b
        omega
      have hzero₁ : ∀ b, 140 + 128 * k ≤ b → b < 140 + 128 * (k + 1) → ι₁.sector (.data b) = 0 := by
        intro b hb hb'
        rw [← h.high b hb]
        exact hzero b hb hb'
      have hfilled : ∀ b, 140 + 128 * k ≤ b → b ≤ 140 + 128 * (k + 1) →
          ι₁.filled b = ι₁.filled (140 + 128 * k) := by
        intro b hb hb'
        exact Index.filled_eq hb fun b' h' h'' => hzero₁ b' h' (by omega)
      have hg := h.advance (by omega : 140 + 128 * k ≤ 140 + 128 * (k + 1)) hzero
      refine (ih hg hp his' (by rw [hcount, hfilled _ (by omega) le_rfl]) hle fun j hj => ?_).mono
        fun r σ₅ h₅ => ?_
      · rcases Nat.lt_or_ge j (140 + 128 * k) with hlt | hge
        · exact hleast j hlt
        · rw [hfilled j hge hj.le, ← hcount]
          exact hmore
      · obtain ⟨f, g, ι₅, hf₅, htab₅, hroot₅, hdbl₅, hback₅, hfrees₅, hgone₅, hclears₅⟩ := h₅
        rw [hend]
        refine ⟨f, g, ι₅, hf₅, htab₅, hroot₅, hdbl₅, hback₅,
          { hfrees₅ with lo_le := by have := hfrees₅.lo_le; omega },
          fun hlt => ⟨(hgone₅ hlt).1, fun j hj => ?_⟩, fun j hj hfj => ?_, fun j hj hfj hs => ?_,
          fun x hx hno => hclears₅.outside x hx fun j hj => hno j (List.mem_cons_of_mem _ hj)⟩
        · rcases List.mem_cons.1 hj with rfl | hj
          · exact fun hs => hnot (hback₅ hs)
          · exact (hgone₅ hlt).2 j hj
        · rcases List.mem_cons.1 hj with rfl | hj
          · exact fun hs => hnot (hback₅ hs)
          · exact hclears₅.gone j hj hfj
        · rcases List.mem_cons.1 hj with rfl | hj
          · exact absurd hs hnot
          · exact hclears₅.first j hj hfj hs
    · rw [returns_pure]
      refine ⟨_, _, ι, h, rfl, rfl, rfl, id, ⟨hcount, hle, le_rfl, by omega, .inr (not_lt.1 hmore), hleast⟩,
        fun hlt => absurd hlt hmore, fun j hj hfj => ?_, fun j hj hfj _ => ?_, fun _ _ _ => rfl⟩
      all_goals
        have hge : 140 + 128 * k ≤ (Slot.table j).first := by
          rcases List.mem_cons.1 hj with rfl | hj
          · exact (congrArg (140 + 128 * ·) he).ge
          · exact (by omega : 140 + 128 * k ≤ 140 + 128 * (k + 1)).trans (hlater j hj)
        exact absurd hfj (not_lt.2 hge)

/-- A buffer of an index block that is not there. -/
theorem Indexed.unbuffer {σ : FsState} {ι : Index} {c : Slot} (h : Indexed own (insert c buf) σ ι)
    (hc : ¬ι.Has c) : Indexed own buf σ ι :=
  { h with
    stored := fun {s} hst hs hn => by
      refine h.stored hst hs ?_
      rintro (rfl | hb)
      · exact hc hs
      · exact hn hb }

theorem Emptying.unbuffer {f g : ℕ} {σ : FsState} {ι : Index} {c : Slot}
    (h : Emptying own inv σ₁ ι₁ (insert c buf) f g σ ι) (hc : ¬ι.Has c) :
    Emptying own inv σ₁ ι₁ buf f g σ ι :=
  { h with indexed := h.indexed.unbuffer hc }

/-- **The end of an indexed part of `free_blocks`**: if not enough was released, the index block
`c`, which has nothing left under it, is released too. -/
theorem closeTable_empties (hbw : BitmapWrites bitmapWrite own inv) (hopen : σ₁.freeMapFile ≠ none)
    (h₁ : Indexed own buf₁ σ₁ ι₁) {freed f g : ℕ} {σ : FsState} {ι : Index} {c : Slot} {i : Fin 128}
    (h : Emptying own inv σ₁ ι₁ (insert c {.root}) f g σ ι) (hc : Slot.root.child i = some c)
    (hct : c.IsTable) (hhas : ι.Has c) (hfirst : c.first < f)
    (hlast : freed < blocks → g = f ∧ (∀ j d, c.child j = some d → d.IsTable → ¬ι.Has d) ∧
      ∀ b, f ≤ b → ∀ j, c.child j ≠ some (.data b))
    (hind : c = .indirect → freed < blocks → σ.store (ι₁.sector c) = σ₁.store (ι₁.sector c)) :
    Returns (closeTable bitmapWrite blocks (ι.sector c) (ι.table c) freed) σ fun entry σ' =>
      ∃ ι', Emptying own inv σ₁ ι₁ {.root} f g σ' ι' ∧
        (ι.table .root).setWord i entry = ι'.table .root ∧
        (∀ s, s ≠ c → (∀ j, c.child j ≠ some s) → ι'.sector s = ι.sector s) ∧
        (blocks ≤ freed → ι' = ι) ∧ (freed < blocks → ¬ι'.Has c) ∧
        ∀ x ∉ own, x ≠ ι.sector c ∨ freed < blocks → σ'.store x = σ.store x := by
  have hcroot := Slot.child_ne_root hc
  have hbuf : insert c {.root} \ {c} = ({.root} : Set Slot) := by
    rw [Set.insert_sdiff_of_mem _ (Set.mem_singleton _)]
    exact Set.sdiff_singleton_eq_self (by simpa using hcroot)
  unfold closeTable
  split_ifs with hfull
  · dsimp only [writeSector]
    rw [returns_modify_bind, returns_pure]
    have hsave := h.save hbw.stable hhas hcroot hct hfirst h₁.distinct
    rw [hbuf] at hsave
    refine ⟨ι, hsave, ?_, fun s _ _ => rfl, fun _ => rfl,
      fun hlt => absurd hfull (not_le.2 hlt), fun x _ hor => ?_⟩
    · rw [← h.indexed.shown hc ι.has_root, Sector.setWord_word]
    · exact Function.update_of_ne (hor.resolve_right (not_lt.2 hfull)) _ _
  · have hmore : freed < blocks := not_le.1 hfull
    obtain ⟨rfl, hflat, hdata⟩ := hlast hmore
    have hopenσ : σ.freeMapFile ≠ none := by rw [h.same.freeMapFile]; exact hopen
    refine (freeMapReleaseWith_returns hbw h.inv hopenσ (h.indexed.inRange hhas)
      (h.indexed.taken hhas)).seq fun _ σ₂ h₂ => ?_
    obtain ⟨hinv, hsame, hmap, hstore⟩ := h₂
    rw [returns_pure]
    have hcut : Emptying own inv σ₁ ι₁ (insert c {.root}) g g σ₂ (ι.cut .root i c) := by
      refine h.cut ι.has_root (Set.mem_insert_of_mem _ rfl) hc hhas hflat hinv hsame hmap hstore le_rfl
        le_rfl (fun b hb => ?_) (fun b hb => ?_) (fun hci => hind hci hmore) h₁.notOwn
      · refine ⟨fun hlt => absurd hb (not_le.2 hlt), ?_⟩
        rintro (rfl | ⟨j, hj⟩)
        · exact hct.elim
        · exact absurd hj (hdata b hb j)
      · refine ⟨fun hlt => absurd hb (not_le.2 hlt), ?_⟩
        rintro rfl
        exact hct.elim
    have hgone : ¬(ι.cut .root i c).Has c := fun hs => ((Index.has_cut hcroot).1 hs).2.1 rfl
    refine ⟨_, hcut.unbuffer hgone, Index.table_cut_self.symm,
      fun s hs hs' => Index.sector_cut hs hs', fun hle => absurd hle hfull, fun _ => hgone,
      fun x hx _ => hstore x hx⟩

/-- Where `free_blocks` is after a part of it. -/
structure Empties (own : Set BlockSector) (inv : FsState → Prop) (σ₁ : FsState) (ι₁ : Index)
    (hi blocks : ℕ) (d : Sector) (freed f g : ℕ) (σ : FsState) (ι : Index) : Prop where
  inode : d = ι.table .root
  emptying : Emptying own inv σ₁ ι₁ {.root} f g σ ι
  frees : Frees ι₁ 0 hi blocks freed f
  gap : freed < blocks → g = f

/-- The direct part. -/
theorem clearDirect_empties (hbw : BitmapWrites bitmapWrite own inv) (hopen : σ₁.freeMapFile ≠ none)
    (h₁ : Indexed own {.root} σ₁ ι₁) (hinv : inv σ₁) :
    Returns (clearEntries bitmapWrite blocks directIndices (ι₁.table .root) 0) σ₁ fun r σ =>
      ∃ f ι, Empties own inv σ₁ ι₁ 12 blocks r.1 r.2 f f σ ι ∧
        ∀ {s}, s.IsTable → ι.sector s = ι₁.sector s := by
  refine (clearEntries_empties hbw hopen h₁ directIndices (k := 0) (Emptying.refl h₁ hinv)
    ι₁.has_root rfl directIndices_range directIndices_child rfl (Nat.zero_le _)
    (fun m hm => absurd hm (Nat.not_lt_zero m))).mono fun r σ h' => ?_
  obtain ⟨f, ι, hf, hsame, htab, hfrees, -⟩ := h'
  exact ⟨f, ι, ⟨htab, hf, hfrees, fun _ => rfl⟩, hsame.sector⟩

/-- The indirect part. -/
theorem freeIndirect_empties (hbw : BitmapWrites bitmapWrite own inv) (hopen : σ₁.freeMapFile ≠ none)
    (h₁ : Indexed own {.root} σ₁ ι₁) {freed f : ℕ} {σ : FsState} {ι : Index} {d : Sector}
    (h : Empties own inv σ₁ ι₁ 12 blocks d freed f f σ ι)
    (hsector : ∀ {s}, s.IsTable → ι.sector s = ι₁.sector s) :
    Returns (freeIndirect bitmapWrite blocks d freed) σ fun r σ' =>
      ∃ f' ι', Empties own inv σ₁ ι₁ 140 blocks r.1 r.2 f' f' σ' ι' ∧
        (∀ {s}, s.IsTable → s ≠ .indirect → ι'.sector s = ι₁.sector s) ∧
        (blocks ≤ r.2 → ι'.sector .indirect = ι₁.sector .indirect) ∧
        (r.2 < blocks → ¬ι'.Has .indirect) := by
  have hchild : Slot.root.child 12 = some .indirect := by simp [Slot.child]
  have hword : d.indirect = ι.sector .indirect := by
    rw [h.inode]
    exact h.emptying.indexed.shown hchild ι.has_root
  have hcount := h.frees.count
  unfold freeIndirect
  split_ifs with hgo
  · obtain ⟨hmore, hne⟩ := hgo
    rw [hword] at hne
    obtain rfl : f = 12 := h.frees.done.resolve_right (not_le.2 hmore)
    have hhas : ι.Has .indirect := .inr hne
    dsimp only [readSector]
    rw [bind_assoc, returns_get_bind, pure_bind, hword]
    refine (clearTable_empties hbw hopen h₁ h.emptying hhas trivial (by simp) (fun j => rfl) hcount
      h.frees.le h.frees.least).seq fun r σ₂ h₂ => ?_
    obtain ⟨f, ι₂, hf, hsame, htab, hfrees, hstore₂⟩ := h₂
    obtain ⟨indirect, freed₂⟩ := r
    dsimp only at htab hfrees ⊢
    have hhas₂ : ι₂.Has .indirect := hsame.has trivial hhas
    have hlt : 12 < f := hfrees.lt (by omega) (by omega)
    rw [← hsame.sector (s := .indirect) trivial, htab]
    refine (closeTable_empties hbw hopen h₁ hf hchild trivial hhas₂ hlt
      (fun hlt' => ⟨rfl, fun j e he het => ?_, fun b hb j hj => ?_⟩) fun _ _ => ?_).seq
      fun entry σ₃ h₃ => ?_
    · obtain rfl := Option.some.inj he
      exact het.elim
    · have := Slot.data.inj (Option.some.inj hj)
      have := hfrees.done.resolve_right (not_le.2 hlt')
      have := j.isLt
      omega
    · have hown := h₁.notOwn (h.emptying.has hhas)
      rw [hstore₂ _ hown]
      exact h.emptying.quiet trivial (by simp) (h.emptying.has hhas) (.inl le_rfl)
    · obtain ⟨ι₃, hf₃, hinode₃, hother₃, hkeep₃, hgone₃, -⟩ := h₃
      rw [returns_pure]
      refine ⟨f, ι₃, ⟨?_, hf₃, ⟨hfrees.count, hfrees.le, Nat.zero_le _, hfrees.le_hi, hfrees.done,
        hfrees.least⟩, fun _ => rfl⟩, fun {s} hst hs => ?_, fun hle => ?_, hgone₃⟩
      · rw [← hinode₃, hsame.table (s := .root) trivial (by simp), ← h.inode]
        rfl
      · have hnot : ∀ j, Slot.indirect.child j ≠ some s := by
          rintro j hj
          obtain rfl := Option.some.inj hj
          exact hst.elim
        rw [hother₃ s hs hnot, hsame.sector hst, hsector hst]
      · rw [hkeep₃ hle, hsame.sector (s := .indirect) trivial, hsector (s := .indirect) trivial]
  · rw [returns_pure]
    rw [hword] at hgo
    by_cases hmore : freed < blocks
    · -- there is no indirect block
      have hzero : ι.sector .indirect = 0 := by
        by_contra hne
        exact hgo ⟨hmore, hne⟩
      have hnot : ¬ι.Has .indirect := fun hhas => (hhas.resolve_left (by simp)) hzero
      obtain rfl : f = 12 := h.frees.done.resolve_right (not_le.2 hmore)
      have hdata : ∀ b, 12 ≤ b → b < 140 → ι.sector (.data b) = 0 := by
        intro b hb hb'
        refine h.emptying.indexed.closed (p := .indirect) (i := ⟨b - 12, by omega⟩) ?_ hnot
        rw [Slot.child]
        congr 2
        show 12 + (b - 12) = b
        omega
      have hdata₁ : ∀ b, 12 ≤ b → b < 140 → ι₁.sector (.data b) = 0 := by
        intro b hb hb'
        rw [← h.emptying.high b hb]
        exact hdata b hb hb'
      have hfilled : ∀ b, 12 ≤ b → b ≤ 140 → ι₁.filled b = ι₁.filled 12 := by
        intro b hb hb'
        exact Index.filled_eq hb fun b' h' h'' => hdata₁ b' h' (by omega)
      refine ⟨140, ι, ⟨h.inode, h.emptying.advance (by omega) hdata, ⟨?_, h.frees.le, Nat.zero_le _,
        le_rfl, .inl rfl, fun m hm => ?_⟩, fun _ => rfl⟩, fun hst _ => hsector hst,
        fun hle => absurd hmore (not_lt.2 hle), fun _ => hnot⟩
      · rw [hfilled 140 (by omega) le_rfl]
        exact hcount
      · rcases Nat.lt_or_ge m 12 with hlt | hge
        · exact h.frees.least m hlt
        · rw [hfilled m hge hm.le, ← hcount]
          exact hmore
    · have hle := h.frees.le_hi
      exact ⟨f, ι, ⟨h.inode, h.emptying, ⟨hcount, h.frees.le, Nat.zero_le _, by omega,
        .inr (not_lt.1 hmore), h.frees.least⟩, h.gap⟩, fun hst _ => hsector hst,
        fun _ => hsector (s := .indirect) trivial, fun hlt => absurd hlt hmore⟩

/-- The doubly indirect part. -/
theorem freeDoubly_empties (hbw : BitmapWrites bitmapWrite own inv) (hopen : σ₁.freeMapFile ≠ none)
    (h₁ : Indexed own {.root} σ₁ ι₁) {freed f : ℕ} {σ : FsState} {ι : Index} {d : Sector}
    (h : Empties own inv σ₁ ι₁ 140 blocks d freed f f σ ι) :
    Returns (freeDoubly bitmapWrite blocks d freed) σ fun r σ' =>
      ∃ f' g ι', Empties own inv σ₁ ι₁ capacity blocks r.1 r.2 f' g σ' ι' ∧
        (ι'.Has .indirect → ι.Has .indirect) ∧
        (f' ≤ 140 → ι'.sector .indirect = ι.sector .indirect) ∧
        (blocks ≤ r.2 → ι'.sector .doubly = ι.sector .doubly) ∧ (r.2 < blocks → ¬ι'.Has .doubly) ∧
        (140 < f' → ι.Has .doubly →
          tableEntry σ'.store (tableEntry σ'.store (ι.sector .doubly) 0) 0 = 0) := by
  have hcapacity : capacity = 16524 := rfl
  have hchild : Slot.root.child 13 = some .doubly := by simp [Slot.child]
  have hword : d.doublyIndirect = ι.sector .doubly := by
    rw [h.inode]
    exact h.emptying.indexed.shown hchild ι.has_root
  have hcount := h.frees.count
  unfold freeDoubly
  split_ifs with hgo
  · obtain ⟨hmore, hne⟩ := hgo
    rw [hword] at hne
    obtain rfl : f = 140 := h.frees.done.resolve_right (not_le.2 hmore)
    have hhas : ι.Has .doubly := .inr hne
    have hrange : (List.finRange 128).map Fin.val = List.range' 0 128 := by
      rw [List.map_coe_finRange_eq_range, List.range_eq_range']
    have hmem : Slot.doubly ∈ (insert .doubly {.root} : Set Slot) := Set.mem_insert _ _
    dsimp only [readSector]
    rw [bind_assoc, returns_get_bind, pure_bind, hword,
      h.emptying.indexed.stored (s := .doubly) trivial hhas (by simp)]
    refine (clearTables_empties hbw hopen h₁ hmem (fun k => by simp) (List.finRange 128) (k := 0)
      (h.emptying.buffer (Set.subset_insert Slot.doubly _)) hhas hrange hcount h.frees.le
      h.frees.least).seq fun r σ₂ h₂ => ?_
    obtain ⟨f, g, ι₂, hf, htab, hroot₂, hdbl₂, hback₂, hfrees, hgone₂, hclears⟩ := h₂
    obtain ⟨doubly, freed₂⟩ := r
    dsimp only at htab hfrees hgone₂ ⊢
    have hhas₂ : ι₂.Has .doubly := by
      refine .inr ?_
      rw [hdbl₂]
      exact hne
    have hlo : (ι₁.filled 140).card < blocks := by omega
    have hlt : 140 < f := hfrees.lt hlo (by omega)
    rw [← hdbl₂, htab]
    refine (closeTable_empties hbw hopen h₁ hf hchild trivial hhas₂ hlt
      (fun hlt' => ⟨(hgone₂ hlt').1, fun j e he _ => ?_, fun b hb j hj => ?_⟩) (by simp)).seq
      fun entry σ₃ h₃ => ?_
    · obtain rfl := Option.some.inj he
      exact (hgone₂ hlt').2 j (List.mem_finRange j)
    · cases hj
    · obtain ⟨ι₃, hf₃, hinode₃, hother₃, hkeep₃, hgone₃, hstore₃⟩ := h₃
      rw [returns_pure]
      refine ⟨f, g, ι₃, ⟨?_, hf₃, ⟨hfrees.count, hfrees.le, Nat.zero_le _, hfrees.le_hi, hfrees.done,
        hfrees.least⟩, fun hlt' => (hgone₂ hlt').1⟩, fun hs => hback₂ ?_,
        fun hle => absurd hlt (not_lt.2 hle), fun hle => by rw [hkeep₃ hle, hdbl₂], hgone₃,
        fun _ _ => ?_⟩
      · rw [← hinode₃, hroot₂, ← h.inode]
        rfl
      · unfold Index.Has at hs ⊢
        rwa [hother₃ .indirect (by simp) fun j hj => by cases hj] at hs
      · have htable : Slot.doubly.child 0 = some (.table 0) := rfl
        rw [hdbl₂]
        by_cases hfull : blocks ≤ freed₂
        · -- the doubly indirect block was written, without the entry
          have hgone : ι₂.sector (.table 0) = 0 := by
            by_contra hno
            exact hclears.gone 0 (List.mem_finRange 0) hlt (.inr hno)
          obtain rfl := hkeep₃ hfull
          have hentry : tableEntry σ₃.store (ι.sector .doubly) 0 = 0 := by
            rw [tableEntry, if_neg hne, ← hdbl₂,
              hf₃.indexed.stored (s := .doubly) trivial hhas₂ (by simp),
              hf₃.indexed.shown htable hhas₂]
            exact hgone
          rw [hentry]
          exact if_pos rfl
        · -- it was released as it was, and the index block under it has been written
          have hmore₂ : freed₂ < blocks := not_le.1 hfull
          have hstore : ∀ x ∉ own, σ₃.store x = σ₂.store x := fun x hx => hstore₃ x hx (.inr hmore₂)
          have hidx := h.emptying.indexed
          have hentry : tableEntry σ₃.store (ι.sector .doubly) 0 = ι.sector (.table 0) := by
            rw [tableEntry, if_neg hne, hstore _ (hidx.notOwn hhas),
              hclears.outside _ (hidx.notOwn hhas) fun j _ hs he => ?_,
              hidx.stored (s := .doubly) trivial hhas (by simp), hidx.shown htable hhas]
            cases hidx.distinct hs hhas he
          rw [hentry, tableEntry]
          split_ifs with hzero
          · rfl
          · have hs : ι.Has (.table 0) := .inr hzero
            rw [hstore _ (hidx.notOwn hs)]
            exact hclears.first 0 (List.mem_finRange 0) hlt hs
  · rw [returns_pure]
    rw [hword] at hgo
    by_cases hmore : freed < blocks
    · -- there is no doubly indirect block
      have hzero : ι.sector .doubly = 0 := by
        by_contra hne
        exact hgo ⟨hmore, hne⟩
      have hnot : ¬ι.Has .doubly := fun hhas => (hhas.resolve_left (by simp)) hzero
      obtain rfl : f = 140 := h.frees.done.resolve_right (not_le.2 hmore)
      have hdata : ∀ b, 140 ≤ b → b < capacity → ι.sector (.data b) = 0 := by
        intro b hb hb'
        have hnot' : ¬ι.Has (.table ⟨(b - 140) / 128, by omega⟩) := fun hhas =>
          hnot (h.emptying.indexed.has_parent (p := .doubly) rfl hhas)
        refine h.emptying.indexed.closed (i := ⟨(b - 140) % 128, by omega⟩) ?_ hnot'
        refine congrArg (fun n => some (Slot.data n)) ?_
        show 140 + 128 * ((b - 140) / 128) + (b - 140) % 128 = b
        omega
      have hdata₁ : ∀ b, 140 ≤ b → b < capacity → ι₁.sector (.data b) = 0 := by
        intro b hb hb'
        rw [← h.emptying.high b hb]
        exact hdata b hb hb'
      have hfilled : ∀ b, 140 ≤ b → b ≤ capacity → ι₁.filled b = ι₁.filled 140 := by
        intro b hb hb'
        exact Index.filled_eq hb fun b' h' h'' => hdata₁ b' h' (by omega)
      have hadvance := h.emptying.advance (by omega : 140 ≤ capacity) hdata
      have hcount' : freed = (ι₁.filled capacity).card := by
        rw [hfilled capacity (by omega) le_rfl]
        exact hcount
      have hleast : ∀ m < capacity, (ι₁.filled m).card < blocks := by
        intro m hm
        rcases Nat.lt_or_ge m 140 with hlt | hge
        · exact h.frees.least m hlt
        · rw [hfilled m hge hm.le, ← hcount]
          exact hmore
      generalize capacity = hi at *
      exact ⟨hi, hi, ι, ⟨h.inode, hadvance, ⟨hcount', h.frees.le, Nat.zero_le _, le_rfl, .inl rfl,
        hleast⟩, fun _ => rfl⟩, id, fun _ => rfl, fun hle => absurd hmore (not_lt.2 hle), fun _ => hnot,
        fun _ hs => absurd hs hnot⟩
    · have hle := h.frees.le_hi
      exact ⟨f, f, ι, ⟨h.inode, h.emptying, ⟨hcount, h.frees.le, Nat.zero_le _, by omega,
        .inr (not_lt.1 hmore), h.frees.least⟩, h.gap⟩, id, fun _ => rfl, fun _ => rfl,
        fun hlt => absurd hlt hmore, fun hlt => absurd hlt (not_lt.2 hle)⟩

/-- **`free_blocks`** releases data blocks from the first on: as many as it was asked for, or all,
and then the index blocks are released too. -/
theorem freeBlocksWith_empties (hbw : BitmapWrites bitmapWrite own inv)
    (hopen : σ₁.freeMapFile ≠ none) (h₁ : Indexed own {.root} σ₁ ι₁) (hinv : inv σ₁) :
    Returns (freeBlocksWith bitmapWrite (ι₁.table .root) blocks) σ₁ fun d σ =>
      ∃ freed f g ι, Empties own inv σ₁ ι₁ capacity blocks d freed f g σ ι ∧
        (blocks ≤ freed → (f ≤ 140 → ι.sector .indirect = ι₁.sector .indirect) ∧
          ι.sector .doubly = ι₁.sector .doubly) ∧
        (freed < blocks → ∀ s, s ≠ .root → ¬ι.Has s) ∧
        (140 < f → ¬ι.Has .indirect ∧ (ι₁.Has .doubly →
          tableEntry σ.store (tableEntry σ.store (ι₁.sector .doubly) 0) 0 = 0)) := by
  have hcapacity : capacity = 16524 := rfl
  unfold freeBlocksWith
  refine (clearDirect_empties hbw hopen h₁ hinv).seq fun r σ₂ h₂ => ?_
  obtain ⟨f₂, ι₂, h₂, hsector₂⟩ := h₂
  refine (freeIndirect_empties hbw hopen h₁ h₂ hsector₂).seq fun r' σ₃ h₃ => ?_
  obtain ⟨f₃, ι₃, h₃, hother₃, hind₃, hgone₃⟩ := h₃
  refine (freeDoubly_empties hbw hopen h₁ h₃).seq fun r'' σ₄ h₄ => ?_
  obtain ⟨f, g, ι, h₄, hback, hind₄, hdbl₄, hgone₄, hlost₄⟩ := h₄
  rw [returns_pure]
  have hcount := h₄.frees.count
  have hcount₃ := h₃.frees.count
  have hdbl₃ : ι₃.sector .doubly = ι₁.sector .doubly := hother₃ (s := .doubly) trivial (by simp)
  refine ⟨_, f, g, ι, h₄, fun hle => ⟨fun hf => ?_, ?_⟩, fun hlt s hroot hs => ?_,
    fun hf => ⟨fun hs => ?_, fun hs => ?_⟩⟩
  · have hle₃ : blocks ≤ r'.2 := by
      by_contra hno
      have hf₃ := h₃.frees.done.resolve_right hno
      rcases Nat.lt_or_ge f f₃ with hlt | hge
      · have := h₃.frees.least f hlt
        omega
      · obtain rfl : f₃ = f := by omega
        omega
    rw [hind₄ hf, hind₃ hle₃]
  · rw [hdbl₄ hle, hdbl₃]
  · have hf : f = capacity := h₄.frees.done.resolve_right (not_le.2 hlt)
    have hgone : ¬ι.Has .doubly := hgone₄ hlt
    cases s with
    | root => exact hroot rfl
    | indirect =>
      have hle₃ := h₃.frees.le_hi
      have hlt₃ := h₄.frees.least f₃ (by omega)
      exact hgone₃ (by omega) (hback hs)
    | doubly => exact hgone hs
    | table i => exact hgone (h₄.emptying.indexed.has_parent (p := .doubly) (i := i) rfl hs)
    | data b =>
      rw [Index.has_data] at hs
      rcases Nat.lt_or_ge b g with hb | hb
      · exact hs (h₄.emptying.low b hb)
      · rw [h₄.gap hlt, hf] at hb
        exact hs (h₄.emptying.indexed.bounded hb)
  · have hle₃ := h₃.frees.le_hi
    have hlt₃ := h₄.frees.least f₃ (by omega)
    exact hgone₃ (by omega) (hback hs)
  · rw [← hdbl₃]
    refine hlost₄ hf ?_
    unfold Index.Has at hs ⊢
    rwa [hdbl₃]

end Loops

end Filesys
end CS162

/-
# A run of two threads that loses an update

`projects1-3/src/filesys/inode.c`, lines 32-152.

One thread alone goes through `cache_write` in three parts: it searches and
chooses a victim with `buffer_cache->lock` held (`search_reaches`,
`sweep_reaches`), recycles the victim (`recycle_reaches`), and takes the block
again to write to it (`write_reaches`).  Between the last two it holds no lock.
A cache filled by sixty-four writes is where the clock's hand, which never
leaves block `0`, makes the next two misses choose the same victim.
-/

import CS162.Filesys.CacheThreadsUpdates

namespace CS162
namespace Filesys

open CS162.Basis

namespace SharedCache

/-- What recycling the victim leaves. -/
def recycled (s : SharedCache) (w : WriteCall) (i : Fin cacheSize) (old : BlockSector)
    (flush : Bool) : SharedCache :=
  { s with
    st := (s.st.relabel i w.sec).evict i old flush
    recycling := Function.update (Function.update s.recycling i (some (old, flush))) i none }

/-- What the rest of the call leaves. -/
def written (s : SharedCache) (w : WriteCall) (i : Fin cacheSize) : SharedCache :=
  { s with
    st := s.st.update i fun cb =>
      { cb with data := copyInto cb.data w.offset w.buff, dirty := true }
    log := s.log ++ [w]
    returned := s.log.length :: s.returned }

end SharedCache

section Parts

variable {T : Type} [DecidableEq T] {g : T → Pc} {o : LockId → Option T} {s : SharedCache}
  {t : T} {w : WriteCall} {code : Pc → SharedCache → Act LockId Pc SharedCache → Prop}

/-- `code` allows what `CacheCode` does, but for taking a victim's lock. -/
def Allows (code : Pc → SharedCache → Act LockId Pc SharedCache → Prop) : Prop :=
  ∀ p s a, (∀ w i old f, p ≠ .acqVictim w i old f) → CacheCode p s a → code p s a

/-- `cache_search` when no block holds the sector.  By induction on the blocks
still to come. -/
theorem search_reaches (hcode : Allows code) (hfree : ∀ j, o (.block j) = none)
    (hmiss : ∀ j, ¬(s.line j).Holds w.sec) (m : ℕ) :
    ∀ i : Fin cacheSize, i.val + m + 1 = cacheSize →
      Reach code ⟨Function.update g t (.acqSearch w i), o, s⟩
        ⟨Function.update g t (.findVictim w), o, s⟩ := by
  have hcompare : ∀ i, code (.compare w i) s (.run s (.relSearch w i false)) := by
    intro i
    refine hcode _ _ _ (by simp) ?_
    have hno : ((s.line i).key == w.sec && (s.line i).valid) = false := by
      by_contra hyes
      rw [Bool.not_eq_false, Bool.and_eq_true, beq_iff_eq] at hyes
      exact hmiss i ⟨hyes.2, hyes.1⟩
    rw [← hno]
    exact .compare
  induction m with
  | zero =>
    intro i hi
    exact .locked (hfree i) (hcode _ _ _ (by simp) .acqSearch) (.ran (hcompare i))
      (hcode _ _ _ (by simp) (.relLast (by omega)))
  | succ m ih =>
    intro i hi
    have hnext : i.val + 1 < cacheSize := by omega
    refine Reach.trans ?_ (ih ⟨i.val + 1, hnext⟩ (by simp only; omega))
    exact .locked (hfree i) (hcode _ _ _ (by simp) .acqSearch) (.ran (hcompare i))
      (hcode _ _ _ (by simp) (.relNext rfl))

/-- From the call to `clock_find_victim`, on a miss. -/
theorem miss_reaches (hcode : Allows code) (hfree : ∀ l, o l = none)
    (hmiss : ∀ j, ¬(s.line j).Holds w.sec) (hw : w.Ok s.st.device) :
    Reach code ⟨Function.update g t .idle, o, s⟩
      ⟨Function.update g t (.findVictim w), Function.update o .cache (some t), s⟩ := by
  refine (Reach.ran (hcode _ _ _ (by simp) (.call w hw))).trans ?_
  refine (Reach.acquired (hcode _ _ _ (by simp) .acqCache) (hfree _)).trans ?_
  refine search_reaches hcode (fun j => ?_) hmiss 63 0 rfl
  rw [Function.update_of_ne (by simp)]
  exact hfree _

/-- Recycling the victim, from before its lock to before `cache_write` takes the
block. -/
theorem recycle_reaches {i : Fin cacheSize} {k : BlockSector} {f : Bool} (hcode : Allows code)
    (hvictim : code (.acqVictim w i k f) s (.acquire (.block i) (.relabel w i k f)))
    (hfree : ∀ l, o l = none) :
    Reach code ⟨Function.update g t (.acqVictim w i k f),
        Function.update o .cache (some t), s⟩
      ⟨Function.update g t (.acqBlock w i), o, s.recycled w i k f⟩ := by
  have hblock : Function.update o .cache (some t) (.block i) = none := by
    rw [Function.update_of_ne (by simp)]
    exact hfree _
  refine (Reach.acquired hvictim hblock).trans ?_
  refine (Reach.ran (hcode _ _ _ (by simp) .relabel)).trans ?_
  refine (Reach.released (hcode _ _ _ (by simp) .relMiss)).trans ?_
  refine (Reach.ran (hcode _ _ _ (by simp) .evict)).trans ?_
  have hend := Reach.released (g := g) (t := t)
    (o := Function.update (Function.update (Function.update o .cache (some t)) (.block i)
      (some t)) .cache none)
    (hcode _ _ _ (by simp) (CacheCode.relEvict (w := w) (i := i) (s := s.recycled w i k f)))
  have howner : Function.update (Function.update (Function.update (Function.update o .cache
      (some t)) (.block i) (some t)) .cache none) (.block i) none = o := by
    funext l
    simp only [Function.update_apply]
    split_ifs with h₁ h₂
    · exact (hfree l).symm
    · exact (hfree l).symm
    · rfl
  rw [howner] at hend
  exact hend

/-- Writing to the block that was got, while it holds the sector still. -/
theorem write_reaches {i : Fin cacheSize} (hcode : Allows code) (hfree : o (.block i) = none)
    (hkey : (s.line i).key = w.sec) :
    Reach code ⟨Function.update g t (.acqBlock w i), o, s⟩
      ⟨Function.update g t .idle, o, s.written w i⟩ := by
  refine Reach.trans (Reach.locked hfree (hcode _ _ _ (by simp) .acqBlock)
    (.ran (hcode _ _ _ (by simp) (.store hkey))) (hcode _ _ _ (by simp) .relDone)) ?_
  exact .ran (hcode _ _ _ (by simp) .done)

/-- `clock_find_victim` when every block is in use: the hand comes back to block
`0`, whose `use` bit is cleared first if it is set. -/
theorem sweep_reaches (hcode : Allows code) (hfree : ∀ j, o (.block j) = none)
    (hvalid : ∀ j, (s.line j).valid = true) (hhand : s.st.cache.clockHand = 0) :
    ∃ st, SameLines s.st st ∧
      Reach code ⟨Function.update g t (.findVictim w), o, s⟩
        ⟨Function.update g t (.acqVictim w 0 (s.line 0).key (s.line 0).mustFlush), o,
          { s with st := st }⟩ := by
  have hzero : ∀ s : SharedCache, s.st.cache.clockHand = 0 → s.sweepStep w = some (s,
      if (s.st.cache.cachedBlocks 0).use = false then s.chosen w 0 else .acqUse w 0) := by
    intro s h
    have hhand : (s.st.cache.clockHand + 1) &&& cacheSize = 0 := by
      rw [h]
      rfl
    have hs : ({ s with st := { s.st with cache := { s.st.cache with clockHand := 0 } } } :
        SharedCache) = s := by
      rw [← h]
    unfold SharedCache.sweepStep
    simp only [hhand, hs]
    rw [dif_pos (by decide)]
    split_ifs with huse <;> simp_all
  have hfind : s.findVictimStep w = s.sweepStep w := by
    unfold SharedCache.findVictimStep
    rw [List.find?_eq_none.2 fun i _ => ?_]
    rw [show (s.st.cache.cachedBlocks i).valid = true from hvalid i]
    decide
  by_cases huse : (s.st.cache.cachedBlocks 0).use = false
  · refine ⟨s.st, ⟨rfl, rfl, rfl, rfl⟩, .ran (hcode _ _ _ (by simp) (.findVictim ?_))⟩
    rw [hfind, hzero s hhand, if_pos huse]
    rfl
  · set s' : SharedCache := { s with st := s.st.update 0 fun cb => { cb with use := false } }
    have hline : s'.line = s.line := line_clearUse s 0
    refine ⟨s'.st, ⟨rfl, hline, rfl, rfl⟩, ?_⟩
    have hfirst : code (.findVictim w) s (.run s (.acqUse w 0)) := by
      refine hcode _ _ _ (by simp) (.findVictim ?_)
      rw [hfind, hzero s hhand, if_neg huse]
    have hsecond : code (.sweep w) s' (.run s' (s.chosen w 0)) := by
      refine hcode _ _ _ (by simp) (.sweep ?_)
      rw [hzero s' hhand, if_pos (by simp [s'])]
      simp only [SharedCache.chosen, hline]
    have hclear := Reach.locked (g := g) (t := t) (hfree 0)
      (hcode (.acqUse w 0) s _ (by simp) .acqUse) (.ran (hcode _ _ _ (by simp) .clearUse))
      (hcode _ _ _ (by simp) .relUse)
    exact ((Reach.ran hfirst).trans hclear).trans (.ran hsecond)

end Parts

/-! ### What the parts leave -/

section Left

variable (s : SharedCache) (w : WriteCall) (i : Fin cacheSize) (old : BlockSector) (f : Bool)

theorem line_recycled :
    ∃ d, (s.recycled w i old f).line = Function.update s.line i ⟨w.sec, true, false, d⟩ := by
  have hrelabel : SharedCache.line { s with st := s.st.relabel i w.sec } =
      Function.update s.line i ⟨w.sec, true, false, (s.line i).data⟩ := lines_update s.st i _
  have hevict := line_evict { s with st := s.st.relabel i w.sec } i old f
  rw [hrelabel, Function.update_self, Function.update_idem] at hevict
  exact ⟨_, hevict⟩

/-- The device at a sector the block was not flushed to. -/
theorem device_recycled {k : BlockSector} (h : f = true → k ≠ old) :
    (s.recycled w i old f).st.device.sectors k = s.st.device.sectors k := by
  cases f
  · rfl
  · exact Function.update_of_ne (h rfl) _ _

theorem size_recycled : (s.recycled w i old f).st.device.size = s.st.device.size := by
  cases f <;> rfl

theorem hand_recycled : (s.recycled w i old f).st.cache.clockHand = s.st.cache.clockHand := by
  cases f <;> rfl

theorem quiet_recycled (h : ∀ j, s.recycling j = none) (j : Fin cacheSize) :
    (s.recycled w i old f).recycling j = none := by
  simp only [SharedCache.recycled, Function.update_apply, h]
  split_ifs <;> rfl

theorem line_written : (s.written w i).line = Function.update s.line i { s.line i with
    data := copyInto (s.line i).data w.offset w.buff, dirty := true } :=
  lines_update s.st i _

end Left

/-! ### Filling the cache -/

/-- Blocks `0` to `n - 1` hold sectors `0` to `n - 1` of a device of `66` sectors,
the others are not in use, and nothing is being recycled. -/
structure FilledTo (n : ℕ) (s : SharedCache) : Prop where
  hand : s.st.cache.clockHand = 0
  size : s.st.device.size = 66
  zero : s.st.device.sectors 64 = Sector.zero
  valid : ∀ j, (s.line j).valid = decide (j.val < n)
  key : ∀ j, j.val < n → (s.line j).key = UInt32.ofNat j.val
  quiet : ∀ j, s.recycling j = none

theorem FilledTo.not_holds {n : ℕ} {s : SharedCache} (h : FilledTo n s) {m : ℕ} (hn : n ≤ m)
    (hm : m < 66) (j : Fin cacheSize) : ¬(s.line j).Holds (UInt32.ofNat m) := by
  rintro ⟨hv, hk⟩
  have hj : j.val < n := by simpa [h.valid] using hv
  have hmod := congrArg UInt32.toNat ((h.key j hj).symm.trans hk)
  rw [UInt32.toNat_ofNat', UInt32.toNat_ofNat'] at hmod
  omega

/-- The first block not in use is the victim. -/
theorem FilledTo.findVictim {n : ℕ} {s : SharedCache} (h : FilledTo n s) (hn : n < cacheSize)
    (w : WriteCall) : s.findVictimStep w = some (s, s.chosen w ⟨n, hn⟩) := by
  have hfind : (List.finRange cacheSize).find? (fun i => !(s.st.cache.cachedBlocks i).valid) =
      some ⟨n, hn⟩ := by
    have hvalid : ∀ j, (s.st.cache.cachedBlocks j).valid = decide (j.val < n) := h.valid
    rw [List.find?_eq_some_iff_getElem]
    refine ⟨by simp [hvalid], n, by simpa using hn, by simp, fun j hj => ?_⟩
    simp [hvalid, hj]
  unfold SharedCache.findVictimStep
  rw [hfind]

/-- The write that fills block `n`. -/
def fillCall (n : ℕ) : WriteCall := ⟨UInt32.ofNat n, [1], 0⟩

theorem fillCall_ok {n : ℕ} (hn : n < 66) {device : Device} (h : device.size = 66) :
    (fillCall n).Ok device := by
  refine ⟨?_, by simp [fillCall, blockSectorSize]⟩
  rw [fillCall, UInt32.toNat_ofNat', h]
  omega

theorem allows_cacheCode : Allows CacheCode := fun _ _ _ _ h => h

theorem allows_freshCode : Allows FreshCode :=
  fun _ _ _ hp h => ⟨h, fun w i old f he => absurd he (hp w i old f)⟩

/-- **One thread fills one more block.** -/
theorem FilledTo.next {n : ℕ} {s : SharedCache} (h : FilledTo n s) (hn : n < cacheSize)
    {g : Bool → Pc} {t : Bool} :
    ∃ s', FilledTo (n + 1) s' ∧ s.log.length ∈ s'.returned ∧
      Reach FreshCode ⟨Function.update g t .idle, fun _ => none, s⟩
        ⟨Function.update g t .idle, fun _ => none, s'⟩ := by
  have hn64 : n < 64 := hn
  obtain ⟨i, hi⟩ : ∃ i : Fin cacheSize, i = ⟨n, hn⟩ := ⟨_, rfl⟩
  have hflush : (s.line i).mustFlush = false := by
    simp [Line.mustFlush, h.valid, hi]
  have hvictim : s.findVictimStep (fillCall n) =
      some (s, .acqVictim (fillCall n) i (s.line i).key false) := by
    rw [h.findVictim hn, ← hi, SharedCache.chosen, hflush]
  obtain ⟨d, hline⟩ := line_recycled s (fillCall n) i (s.line i).key false
  refine ⟨(s.recycled (fillCall n) i (s.line i).key false).written (fillCall n) i, ?_,
    List.mem_cons_self, ?_⟩
  · have hline' := line_written (s.recycled (fillCall n) i (s.line i).key false) (fillCall n) i
    rw [hline, Function.update_idem, Function.update_self] at hline'
    refine ⟨h.hand, h.size, h.zero, fun j => ?_, fun j hj => ?_,
      quiet_recycled s (fillCall n) i (s.line i).key false h.quiet⟩
    · rw [hline']
      by_cases hji : j = i
      · subst hji
        simp [hi]
      · have hne : j.val ≠ n := fun he => hji (hi ▸ Fin.ext he)
        rw [Function.update_of_ne hji, h.valid]
        exact decide_eq_decide.2 (by omega)
    · rw [hline']
      by_cases hji : j = i
      · subst hji
        simp [hi, fillCall]
      · have hne : j.val ≠ n := fun he => hji (hi ▸ Fin.ext he)
        rw [Function.update_of_ne hji]
        exact h.key j (by omega)
  · have hmiss := h.not_holds le_rfl (by omega : n < 66)
    have hkey : ((s.recycled (fillCall n) i (s.line i).key false).line i).key =
        (fillCall n).sec := by
      rw [hline, Function.update_self]
    have hfresh : FreshCode (.acqVictim (fillCall n) i (s.line i).key false) s
        (.acquire (.block i) (.relabel (fillCall n) i (s.line i).key false)) := by
      refine ⟨.acqVictim, fun w j old f heq => ?_⟩
      obtain ⟨-, rfl, -, rfl⟩ := Pc.acqVictim.inj heq
      exact hflush
    refine (miss_reaches allows_freshCode (fun _ => rfl) hmiss
      (fillCall_ok (by omega) h.size)).trans ?_
    refine (Reach.ran (allows_freshCode _ _ _ (by simp) (.findVictim hvictim))).trans ?_
    exact (recycle_reaches allows_freshCode hfresh fun _ => rfl).trans
      (write_reaches allows_freshCode rfl hkey)

/-- The device of the lost update: `66` sectors of zeros. -/
def zeroDevice : Device := ⟨66, fun _ => Sector.zero⟩

/-- The cache can be filled up to any block. -/
theorem filled_reaches (n : ℕ) (hn : n ≤ cacheSize) :
    ∃ s, FilledTo n s ∧ Reach FreshCode (threadsInit Bool zeroDevice fun _ => 0)
      ⟨Function.update (fun _ => .idle) true .idle, fun _ => none, s⟩ := by
  induction n with
  | zero =>
    refine ⟨(threadsInit Bool zeroDevice fun _ => 0).shared,
      ⟨rfl, rfl, rfl, fun _ => rfl, fun _ hj => absurd hj (Nat.not_lt_zero _), fun _ => rfl⟩, ?_⟩
    have hpc : Function.update (fun _ : Bool => Pc.idle) true .idle = fun _ => .idle :=
      Function.update_eq_self true (fun _ => Pc.idle)
    rw [hpc]
    exact .refl
  | succ n ih =>
    obtain ⟨s, hs, hreach⟩ := ih (by omega)
    obtain ⟨s', hs', -, hnext⟩ := hs.next (by omega)
    exact ⟨s', hs', hreach.trans hnext⟩

/-- A run of fresh steps in which a `cache_write` has returned. -/
theorem noLostUpdate_of_fresh_one :
    ∃ c : Config Bool LockId Pc SharedCache, (∃ n ∈ c.shared.returned, n < c.shared.log.length) ∧
      c.shared.Keeps 0 (c.shared.content 0) := by
  obtain ⟨s₀, hs₀, hinit⟩ := filled_reaches 0 (Nat.zero_le _)
  obtain ⟨s, hs, hret, hnext⟩ := hs₀.next (g := fun _ => .idle) (t := true) (by decide)
  obtain ⟨hlog, hkeeps⟩ := noLostUpdate_of_fresh zeroDevice (fun _ => 0) (hinit.trans hnext)
  refine ⟨_, ⟨_, hret, hlog _ hret⟩, ((hkeeps 0).1 ?_).1⟩
  rintro ⟨i, old, f, hrec, -⟩
  rw [hs.quiet i] at hrec
  cases hrec

/-! ### The race -/

/-- Every block is in use, block `0` with sector `k`, the others with sectors below `64`. -/
structure Full (k : BlockSector) (s : SharedCache) : Prop where
  hand : s.st.cache.clockHand = 0
  size : s.st.device.size = 66
  zero : s.st.device.sectors 64 = Sector.zero
  valid : ∀ j, (s.line j).valid = true
  front : (s.line 0).key = k
  rest : ∀ j, j ≠ 0 → (s.line j).key.toNat < 64
  quiet : ∀ j, s.recycling j = none

theorem FilledTo.full {s : SharedCache} (h : FilledTo cacheSize s) : Full 0 s where
  hand := h.hand
  size := h.size
  zero := h.zero
  valid j := by simp [h.valid]
  front := h.key 0 (by decide)
  rest j _ := by
    have hj : j.val < 64 := j.isLt
    rw [h.key j j.isLt, UInt32.toNat_ofNat']
    omega
  quiet := h.quiet

namespace Full

variable {k : BlockSector} {s : SharedCache}

theorem not_holds (h : Full k s) {sec : BlockSector} (hk : k ≠ sec) (hsec : 64 ≤ sec.toNat)
    (j : Fin cacheSize) : ¬(s.line j).Holds sec := by
  rintro ⟨-, rfl⟩
  by_cases hj : j = 0
  · subst hj
    exact hk h.front.symm
  · exact absurd (h.rest j hj) (by omega)

/-- Choosing a victim in a full cache. -/
theorem choose_reaches (h : Full k s) {w : WriteCall} (hw : w.Ok s.st.device) (hk : k ≠ w.sec)
    (hsec : 64 ≤ w.sec.toNat) {g : Bool → Pc} {t : Bool} :
    ∃ s', Full k s' ∧ s'.line = s.line ∧ Reach CacheCode
      ⟨Function.update g t .idle, fun _ => none, s⟩
      ⟨Function.update g t (.acqVictim w 0 k (s'.line 0).mustFlush),
        Function.update (fun _ => none) .cache (some t), s'⟩ := by
  obtain ⟨st, hsame, hsweep⟩ := sweep_reaches allows_cacheCode (g := g) (t := t) (w := w)
    (o := Function.update (fun _ => none) .cache (some t)) (fun j => by simp) h.valid h.hand
  have hline : SharedCache.line { s with st := st } = s.line := hsame.lines
  refine ⟨{ s with st := st }, ⟨?_, ?_, ?_, ?_, ?_, ?_, h.quiet⟩, hline, ?_⟩
  · exact hsame.hand.trans h.hand
  · exact (congrArg Device.size hsame.device).trans h.size
  · exact (congrArg (fun d => d.sectors 64) hsame.device).trans h.zero
  · rw [hline]
    exact h.valid
  · rw [hline]
    exact h.front
  · rw [hline]
    exact h.rest
  · rw [h.front] at hsweep
    rw [hline]
    exact (miss_reaches allows_cacheCode (fun _ => rfl) (h.not_holds hk hsec) hw).trans hsweep

/-- Recycling block `0`. -/
theorem recycled (h : Full k s) (w : WriteCall) {f : Bool} (hf : f = true → (64 : BlockSector) ≠ k) :
    Full w.sec (s.recycled w 0 k f) ∧ ((s.recycled w 0 k f).line 0).mustFlush = false := by
  obtain ⟨d, hline⟩ := line_recycled s w 0 k f
  refine ⟨⟨?_, ?_, ?_, fun j => ?_, ?_, fun j hj => ?_, ?_⟩, ?_⟩
  · exact (hand_recycled s w 0 k f).trans h.hand
  · exact (size_recycled s w 0 k f).trans h.size
  · exact (device_recycled s w 0 k f hf).trans h.zero
  · rw [hline, Function.update_apply]
    split_ifs
    · rfl
    · exact h.valid j
  · rw [hline, Function.update_self]
  · rw [hline, Function.update_of_ne hj]
    exact h.rest j hj
  · exact quiet_recycled s w 0 k f h.quiet
  · rw [hline, Function.update_self]
    rfl

/-- Writing to block `0`. -/
theorem written (h : Full k s) (w : WriteCall) : Full k (s.written w 0) := by
  have hline := line_written s w 0
  refine ⟨h.hand, h.size, h.zero, fun j => ?_, ?_, fun j hj => ?_, h.quiet⟩
  · rw [hline, Function.update_apply]
    split_ifs
    · exact h.valid 0
    · exact h.valid j
  · rw [hline, Function.update_self]
    exact h.front
  · rw [hline, Function.update_of_ne hj]
    exact h.rest j hj

end Full

theorem flushList_device (is : List (Fin cacheSize)) (st : CacheState) {k : BlockSector}
    (h : ∀ j, (st.lines j).key ≠ k) :
    (is.foldl SharedCache.flushOne st).device.sectors k = st.device.sectors k := by
  induction is generalizing st with
  | nil => rfl
  | cons i is ih =>
    rw [List.foldl_cons, ih _ fun j => by rw [(flushOne_line st i j).1]; exact h j]
    unfold SharedCache.flushOne
    split_ifs
    · exact Function.update_of_ne (h i).symm _ _
    · rfl

/-- A sector no block holds has its device's content, before and after a flush. -/
theorem lost_of_not_held {s : SharedCache} {n : ℕ} {w : WriteCall} (hn : n ∈ s.returned)
    (hw : s.log[n]? = some w) (hlast : s.log.length = n + 1)
    (hline : ∀ j, (s.line j).key ≠ w.sec) {j : Fin 512} (hj : w.Covers w.sec j)
    (hdev : w.buff[j.val - w.offset]? ≠ some (s.st.device.sectors w.sec j)) :
    ¬s.Keeps w.sec (s.content w.sec) ∧
      ¬s.Keeps w.sec ((SharedCache.flushAll s.st).device.sectors w.sec) := by
  have hlater : ∀ w' ∈ s.log.drop (n + 1), ¬w'.Covers w.sec j := by
    rw [← hlast, List.drop_length]
    simp
  have hflush : (SharedCache.flushAll s.st).device.sectors w.sec = s.st.device.sectors w.sec := by
    unfold SharedCache.flushAll
    exact flushList_device _ s.st hline
  have hcontent : s.content w.sec = s.st.device.sectors w.sec := by
    unfold SharedCache.content CacheState.content
    split
    · next i hi => exact absurd (cacheSearch_some hi).2 (hline i)
    · rfl
  refine ⟨fun h => hdev ?_, fun h => hdev ?_⟩
  · rw [← hcontent]
    exact h n hn w hw j hj hlater
  · rw [← hflush]
    exact h n hn w hw j hj hlater

/-- **An update is lost.**  Thread `true` fills the cache, misses on sector `64`,
refills block `0` for it and gives the block back; thread `false` misses on
sector `65`, finds block `0` clean and waits for its lock; thread `true` writes
to block `0` and returns; thread `false` recycles block `0` without a flush. -/
theorem lostUpdate :
    ∃ c : Config Bool LockId Pc SharedCache,
      Reach CacheCode (threadsInit Bool zeroDevice fun _ => 0) c ∧
      (∀ sec, ¬c.shared.InFlight sec) ∧
      ¬c.shared.Keeps 64 (c.shared.content 64) ∧
      ¬c.shared.Keeps 64 ((SharedCache.flushAll c.shared.st).device.sectors 64) := by
  have hswap : ∀ p q : Pc, Function.update (Function.update (fun _ => Pc.idle) true p) false q =
      Function.update (Function.update (fun _ => .idle) false q) true p :=
    fun p q => Function.update_comm (by decide) _ _ _
  have hidle : ∀ p : Pc, Function.update (fun _ => Pc.idle) true p =
      Function.update (Function.update (fun _ => .idle) true p) false .idle :=
    fun p => (Function.update_eq_self false (Function.update (fun _ => Pc.idle) true p)).symm
  set w₁ : WriteCall := ⟨64, [1], 0⟩
  set w₂ : WriteCall := ⟨65, [2], 0⟩
  obtain ⟨s₀, hs₀, hfill⟩ := filled_reaches cacheSize le_rfl
  obtain ⟨s₁, hs₁, -, hchoose₁⟩ := hs₀.full.choose_reaches (w := w₁)
    (fillCall_ok (n := 64) (by decide) hs₀.size) (by decide) (by decide)
  have hrecycle₁ := recycle_reaches (g := fun _ => .idle) (t := true) (s := s₁) (w := w₁) (i := 0)
    (o := fun _ => none) (k := 0) (f := (s₁.line 0).mustFlush) allows_cacheCode .acqVictim
    fun _ => rfl
  obtain ⟨hs₂, hclean⟩ := hs₁.recycled w₁ (f := (s₁.line 0).mustFlush) fun _ => by decide
  have hfirst := ((hfill.mono fun _ _ _ h => h.1).trans hchoose₁).trans hrecycle₁
  -- thread `true` holds no lock, thread `false` chooses the same block
  obtain ⟨s₃, hs₃, hline₃, hchoose₂⟩ := hs₂.choose_reaches (w := w₂) (t := false)
    (g := Function.update (fun _ => .idle) true (.acqBlock w₁ 0))
    ⟨by rw [hs₂.size]; decide, by decide⟩ (by decide) (by decide)
  rw [hline₃, hclean, ← hidle, hswap] at hchoose₂
  have hwrite := write_reaches allows_cacheCode (g := Function.update (fun _ => .idle) false
    (.acqVictim w₂ 0 w₁.sec false)) (t := true) (w := w₁) (i := 0) (s := s₃)
    (o := Function.update (fun _ => none) .cache (some false)) (by simp) hs₃.front
  have hs₄ := hs₃.written w₁
  have hrecycle₂ := recycle_reaches (t := false) (s := s₃.written w₁ 0)
    (g := Function.update (fun _ => .idle) true .idle)
    (w := w₂) (i := 0) (o := fun _ => none) (k := w₁.sec) (f := false)
    allows_cacheCode .acqVictim fun _ => rfl
  rw [hswap] at hrecycle₂
  obtain ⟨hs₅, -⟩ := hs₄.recycled w₂ (f := false) fun h => absurd h (by decide)
  refine ⟨_, ((hfirst.trans hchoose₂).trans hwrite).trans hrecycle₂, ?_, ?_⟩
  · rintro sec ⟨i, old, f, hrec, -⟩
    rw [hs₅.quiet i] at hrec
    cases hrec
  · refine lost_of_not_held (w := w₁) (n := s₃.log.length) (j := 0) ?_ ?_ ?_ (fun j => ?_) ?_ ?_
    · exact List.mem_cons_self
    · exact List.getElem?_concat_length
    · simp [SharedCache.recycled, SharedCache.written]
    · by_cases hj : j = 0
      · subst hj
        rw [hs₅.front]
        decide
      · have := hs₅.rest j hj
        intro he
        rw [he] at this
        exact absurd this (by decide)
    · exact ⟨rfl, by decide, by decide⟩
    · rw [hs₅.zero]
      decide

/-- **The cache loses updates under two threads.** -/
theorem not_noLostUpdate :
    ¬∀ (device : Device) (junk : Fin cacheSize → BlockSector)
      (c : Config Bool LockId Pc SharedCache),
      Reach CacheCode (threadsInit Bool device junk) c → c.shared.NoLostUpdate := by
  intro h
  obtain ⟨c, hreach, -, hlost, -⟩ := lostUpdate
  exact hlost (h zeroDevice (fun _ => 0) c hreach 64).1

end Filesys
end CS162

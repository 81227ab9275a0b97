/-
# What the buffer cache holds

`projects1-3/src/filesys/inode.c`, lines 32-152, run by one thread.

The blocks of the cache are the lines of a write-back cache over the device
(`Basis.WriteBack`), so `CacheOk st ideal` says which content `ideal` the blocks
and the device stand for together.  Every function below keeps it: a miss
recycles a line, `cache_write` writes to one, `flush_cache` flushes them all.
`cache_read` is the exception: it copies its buffer over the bytes it was asked
for, so it keeps the content only when the buffer holds those bytes already.
-/

import CS162.Basis.WriteBack
import CS162.Filesys.BufferCache

namespace CS162
namespace Filesys

open CS162.Basis

/-- A block as a line of a write-back cache. -/
def CachedBlock.line (cb : CachedBlock) : Line BlockSector Sector :=
  ⟨cb.sector, cb.valid, cb.dirty, cb.data⟩

/-- The blocks of the cache as lines. -/
def CacheState.lines (st : CacheState) (i : Fin cacheSize) : Line BlockSector Sector :=
  (st.cache.cachedBlocks i).line

/-- Blocks and device hold the content `ideal`, every block in use is a block of
the device, and no call is under way. -/
structure CacheOk (st : CacheState) (ideal : BlockSector → Sector) : Prop where
  coherent : Coherent st.lines st.device.sectors ideal
  inRange : ∀ i, (st.lines i).valid = true → (st.lines i).key.toNat < st.device.size
  unlocked : st.cache.locked = false
  hand : st.cache.clockHand = 0

theorem lines_update (st : CacheState) (i : Fin cacheSize) (f : CachedBlock → CachedBlock) :
    (st.update i f).lines = Function.update st.lines i (f (st.cache.cachedBlocks i)).line := by
  funext j
  by_cases h : j = i
  · subst h
    simp [CacheState.lines, CacheState.update]
  · simp [CacheState.lines, CacheState.update, h]

@[simp] theorem lines_writeDevice (st : CacheState) (sector : BlockSector) (buffer : Sector) :
    (st.writeDevice sector buffer).lines = st.lines := rfl

@[simp] theorem size_writeDevice (st : CacheState) (sector : BlockSector) (buffer : Sector) :
    (st.writeDevice sector buffer).device.size = st.device.size := rfl

@[simp] theorem device_update (st : CacheState) (i : Fin cacheSize)
    (f : CachedBlock → CachedBlock) : (st.update i f).device = st.device := rfl

@[simp] theorem cachedBlocks_update (st : CacheState) (i : Fin cacheSize)
    (f : CachedBlock → CachedBlock) :
    (st.update i f).cache.cachedBlocks i = f (st.cache.cachedBlocks i) :=
  Function.update_self ..

@[simp] theorem clockHand_update (st : CacheState) (i : Fin cacheSize)
    (f : CachedBlock → CachedBlock) : (st.update i f).cache.clockHand = st.cache.clockHand := rfl

@[simp] theorem locked_update (st : CacheState) (i : Fin cacheSize)
    (f : CachedBlock → CachedBlock) : (st.update i f).cache.locked = st.cache.locked := rfl

/-- After `buffer_cache_init` the content is the device's. -/
theorem bufferCacheInit_ok (device : Device) (junk : Fin cacheSize → BlockSector) :
    CacheOk (bufferCacheInit device junk) device.sectors where
  coherent := Coherent.init fun _ => rfl
  inRange i h := by simp [CacheState.lines, CachedBlock.line, bufferCacheInit] at h
  unlocked := rfl
  hand := rfl

/-! ### Searching and choosing a victim -/

theorem cacheSearch_some {st : CacheState} {sector : BlockSector} {i : Fin cacheSize}
    (h : cacheSearch st.cache sector = some i) : (st.lines i).Holds sector := by
  have hi := List.find?_some h
  rw [Bool.and_eq_true, beq_iff_eq] at hi
  exact ⟨hi.2, hi.1⟩

theorem cacheSearch_none {st : CacheState} {sector : BlockSector}
    (h : cacheSearch st.cache sector = none) (i : Fin cacheSize) : ¬(st.lines i).Holds sector := by
  intro hi
  have hno := List.find?_eq_none.1 h i (List.mem_finRange i)
  rw [Bool.and_eq_true, beq_iff_eq] at hno
  exact hno ⟨hi.2, hi.1⟩

/-- **The content is the ideal one.** -/
theorem CacheOk.content_eq {st : CacheState} {ideal : BlockSector → Sector} (h : CacheOk st ideal)
    (sector : BlockSector) : st.content sector = ideal sector := by
  unfold CacheState.content
  split
  · next i hi => exact h.coherent.cached_eq (cacheSearch_some hi)
  · next hi => exact h.coherent.uncached _ (cacheSearch_none hi)

/-- What choosing a victim leaves: everything but use bits. -/
structure SameLines (st st' : CacheState) : Prop where
  device : st'.device = st.device
  lines : st'.lines = st.lines
  locked : st'.cache.locked = st.cache.locked
  hand : st'.cache.clockHand = st.cache.clockHand

/-- From hand `0` the clock stays at block `0`: `(0 + 1) & 64 = 0`.  It returns
there in the first turn, or in the second after clearing the use bit. -/
theorem clockSweep_returns (st : CacheState) (hh : st.cache.clockHand = 0) :
    Returns clockSweep st fun _ st' => SameLines st st' := by
  have hturn : ∀ st : CacheState, st.cache.clockHand = 0 → clockSweep st =
      if (st.cache.cachedBlocks 0).use = false then some (0, st)
      else clockSweep (st.update 0 fun cb => { cb with use := false }) := by
    intro st h
    have hhand : (st.cache.clockHand + 1) &&& cacheSize = 0 := by
      rw [h]
      rfl
    have hst : ({ st with cache := { st.cache with clockHand := 0 } } : CacheState) = st := by
      rw [← h]
    rw [clockSweep]
    simp only [hhand, hst]
    rw [dif_pos (by decide)]
    rfl
  by_cases hu : (st.cache.cachedBlocks 0).use = false
  · have hrun : clockSweep st = some (0, st) := by rw [hturn st hh, if_pos hu]
    exact ⟨0, st, hrun, ⟨rfl, rfl, rfl, rfl⟩⟩
  · set st' := st.update 0 fun cb => { cb with use := false }
    have hlines : st'.lines = st.lines :=
      (lines_update st 0 _).trans (Function.update_eq_self 0 st.lines)
    have hrun : clockSweep st = some (0, st') := by
      rw [hturn st hh, if_neg hu, hturn st' hh, if_pos (by simp [st'])]
    exact ⟨0, st', hrun, ⟨rfl, hlines, rfl, rfl⟩⟩

theorem clockFindVictim_returns (st : CacheState) (hh : st.cache.clockHand = 0) :
    Returns clockFindVictim st fun _ st' => SameLines st st' := by
  unfold clockFindVictim
  rw [returns_get_bind]
  split
  · rw [returns_pure]
    exact ⟨rfl, rfl, rfl, rfl⟩
  · exact clockSweep_returns st hh

/-! ### Device accesses -/

theorem blockRead_returns {st : CacheState} {sector : BlockSector}
    (h : sector.toNat < st.device.size) :
    Returns (blockRead sector) st fun data st' => data = st.device.sectors sector ∧ st' = st := by
  unfold blockRead
  rw [returns_get_bind, if_pos h, returns_pure]
  exact ⟨rfl, rfl⟩

theorem blockWrite_returns {st : CacheState} {sector : BlockSector} (buffer : Sector)
    (h : sector.toNat < st.device.size) :
    Returns (blockWrite sector buffer) st fun _ st' =>
      st' = st.writeDevice sector buffer := by
  unfold blockWrite
  rw [returns_get_bind, if_pos h]
  exact ⟨(), _, rfl, rfl⟩

theorem acquireCacheLock_returns {st : CacheState} (h : st.cache.locked = false) :
    Returns acquireCacheLock st fun _ st' =>
      st' = st.setLocked true := by
  unfold acquireCacheLock
  rw [returns_get_bind, if_neg (by simp [h])]
  exact ⟨(), _, rfl, rfl⟩

/-- **What `evict_and_replace` does** to a block labelled with its new sector:
the old content goes to the device if `flush` says so, then the block is filled
from the device. -/
theorem evictAndReplace_returns (st : CacheState) {i : Fin cacheSize} {oldSector : BlockSector}
    {flush : Bool} (dev : BlockSector → Sector)
    (hdev : dev = if flush = true then
      Function.update st.device.sectors oldSector (st.cache.cachedBlocks i).data
      else st.device.sectors)
    (hold : flush = true → oldSector.toNat < st.device.size)
    (hnew : (st.cache.cachedBlocks i).sector.toNat < st.device.size) :
    Returns (evictAndReplace i oldSector flush) st fun _ st' =>
      st' = ({ st with device := { st.device with sectors := dev } } : CacheState).update i
        fun cb => { cb with data := dev cb.sector } := by
  unfold evictAndReplace
  rw [returns_get_bind]
  cases flush with
  | true =>
    simp only [if_true] at hdev ⊢
    refine (blockWrite_returns _ (hold rfl)).seq fun _ st₁ h₁ => ?_
    subst h₁
    refine (blockRead_returns (by simpa using hnew)).seq fun data st₂ h₂ => ?_
    obtain ⟨rfl, rfl⟩ := h₂
    rw [returns_modify, hdev]
    rfl
  | false =>
    simp only [Bool.false_eq_true, if_false] at hdev ⊢
    refine (blockRead_returns hnew).seq fun data st₂ h₂ => ?_
    obtain ⟨rfl, rfl⟩ := h₂
    rw [returns_modify, hdev]
    rfl

/-! ### The operations of the cache -/

/-- **`get_cached_block` finds or fetches the sector** and changes no content. -/
theorem getCachedBlock_returns {st : CacheState} {ideal : BlockSector → Sector}
    (h : CacheOk st ideal) {sector : BlockSector} (hs : sector.toNat < st.device.size) :
    Returns (getCachedBlock sector) st fun i st' =>
      CacheOk st' ideal ∧ (st'.lines i).Holds sector ∧ st'.device.size = st.device.size := by
  unfold getCachedBlock
  refine (acquireCacheLock_returns h.unlocked).seq fun _ st₁ h₁ => ?_
  subst h₁
  rw [returns_get_bind]
  split
  · next i hi =>
    simp only [releaseCacheLock, returns_modify_bind, returns_pure]
    exact ⟨⟨h.coherent, h.inRange, rfl, h.hand⟩, cacheSearch_some hi, rfl⟩
  · next hi =>
    have hmiss : ∀ j, ¬(st.lines j).Holds sector := cacheSearch_none hi
    refine (clockFindVictim_returns (st.setLocked true) h.hand).seq fun i st₂ h₂ => ?_
    simp only [returns_get_bind, releaseCacheLock, returns_modify_bind]
    have hline : (st₂.cache.cachedBlocks i).line = st.lines i := congrFun h₂.lines i
    have hkey : (st₂.cache.cachedBlocks i).sector = (st.lines i).key := congrArg Line.key hline
    have hdata : (st₂.cache.cachedBlocks i).data = (st.lines i).data := congrArg Line.data hline
    have hflush : ((st₂.cache.cachedBlocks i).dirty && (st₂.cache.cachedBlocks i).valid) =
        (st.lines i).mustFlush := by
      rw [← hline, Bool.and_comm]
      rfl
    have hdevice : st₂.device = st.device := h₂.device
    rw [hflush, hkey]
    refine (evictAndReplace_returns ((st₂.relabel i sector).setLocked false)
      (Coherent.writeBack st.device.sectors (st.lines i)) ?_ (fun hf => ?_) ?_).seq
        fun _ st₃ h₃ => ?_
    · simp only [Coherent.writeBack, ← hdata]
      simp [CacheState.relabel, CacheState.setLocked, CacheState.update, hdevice]
    · rw [Line.mustFlush, Bool.and_eq_true] at hf
      simpa [CacheState.relabel, CacheState.setLocked, hdevice] using h.inRange i hf.1
    · simpa [CacheState.relabel, CacheState.setLocked, CacheState.update, hdevice] using hs
    · rw [returns_pure]
      have hlines : st₃.lines = Function.update st.lines i
          ⟨sector, true, false, Coherent.writeBack st.device.sectors (st.lines i) sector⟩ := by
        funext j
        by_cases hj : j = i
        · subst hj
          rw [h₃, lines_update]
          simp [CachedBlock.line, CacheState.relabel, CacheState.setLocked, CacheState.update]
        · rw [h₃, lines_update]
          simpa [hj, CacheState.lines, CacheState.relabel, CacheState.setLocked,
            CacheState.update] using congrFun h₂.lines j
      have hsize : st₃.device.size = st.device.size := by
        rw [h₃]
        change st₂.device.size = st.device.size
        rw [hdevice]
      have hsectors : st₃.device.sectors = Coherent.writeBack st.device.sectors (st.lines i) := by
        rw [h₃]
        rfl
      refine ⟨⟨?_, fun j hj => ?_, by rw [h₃]; rfl, by rw [h₃]; exact h₂.hand.trans h.hand⟩, ?_, hsize⟩
      · rw [hlines, hsectors]
        exact h.coherent.recycle i hmiss ⟨rfl, rfl⟩ rfl
      · rw [hlines] at hj ⊢
        rw [hsize]
        by_cases hji : j = i
        · subst hji
          simpa using hs
        · rw [Function.update_of_ne hji] at hj ⊢
          exact h.inRange j hj
      · rw [hlines, Function.update_self]
        exact ⟨rfl, rfl⟩

/-- **`cache_write` writes to the content.** -/
theorem cacheWrite_returns {st : CacheState} {ideal : BlockSector → Sector} (h : CacheOk st ideal)
    {sec : BlockSector} (hs : sec.toNat < st.device.size) {buff : List UInt8} {offset : ℕ}
    (hlen : offset + buff.length ≤ blockSectorSize) (tries : ℕ) :
    Returns (cacheWrite (tries + 1) sec buff offset) st fun _ st' =>
      CacheOk st' (Function.update ideal sec (copyInto (ideal sec) offset buff)) ∧
        st'.device.size = st.device.size := by
  rw [cacheWrite]
  refine (getCachedBlock_returns h hs).seq fun i st₁ h₁ => ?_
  obtain ⟨hok, hhold, hsize⟩ := h₁
  have hsec : (st₁.cache.cachedBlocks i).sector = sec := hhold.2
  have hdata : (st₁.cache.cachedBlocks i).data = ideal sec := hok.coherent.cached_eq hhold
  rw [returns_get_bind, if_pos hsec, if_pos hlen, returns_modify]
  refine ⟨⟨?_, fun j hj => ?_, hok.unlocked, hok.hand⟩, hsize⟩
  · rw [lines_update, ← hdata]
    exact hok.coherent.write hhold (copyInto (st₁.cache.cachedBlocks i).data offset buff)
  · rw [lines_update] at hj ⊢
    by_cases hji : j = i
    · subst hji
      rw [Function.update_self] at hj ⊢
      exact hok.inRange j hj
    · rw [Function.update_of_ne hji] at hj ⊢
      exact hok.inRange j hj

/-- **`cache_read` leaves its buffer as it was** and copies it over the bytes
asked for: the content is unchanged when the buffer holds those bytes already. -/
theorem cacheRead_returns {st : CacheState} {ideal : BlockSector → Sector} (h : CacheOk st ideal)
    {sec : BlockSector} (hs : sec.toNat < st.device.size) {buff : List UInt8} {offset : ℕ}
    (hlen : offset + buff.length ≤ blockSectorSize) (tries : ℕ) :
    Returns (cacheRead (tries + 1) sec buff offset) st fun out st' => out = buff ∧
      st'.device.size = st.device.size ∧
      (buff = slice (ideal sec) offset buff.length → CacheOk st' ideal) := by
  rw [cacheRead]
  refine (getCachedBlock_returns h hs).seq fun i st₁ h₁ => ?_
  obtain ⟨hok, hhold, hsize⟩ := h₁
  have hsec : (st₁.cache.cachedBlocks i).sector = sec := hhold.2
  have hdata : (st₁.cache.cachedBlocks i).data = ideal sec := hok.coherent.cached_eq hhold
  rw [returns_get_bind, if_pos hsec, if_pos hlen, returns_modify_bind, returns_pure]
  refine ⟨rfl, hsize, fun hbuff => ?_⟩
  have hsame : copyInto (st₁.cache.cachedBlocks i).data offset buff =
      (st₁.cache.cachedBlocks i).data := by
    rw [hdata, hbuff, copyInto_slice]
  have hlines : (st₁.update i fun cb =>
      { cb with data := copyInto cb.data offset buff }).lines = st₁.lines := by
    rw [lines_update, hsame]
    exact Function.update_eq_self i st₁.lines
  exact ⟨hlines ▸ hok.coherent, hlines ▸ hok.inRange, hok.unlocked, hok.hand⟩

/-! ### Flushing -/

/-- Every block in use is a block of the device. -/
def InRange (st : CacheState) : Prop :=
  ∀ i, (st.lines i).valid = true → (st.lines i).key.toNat < st.device.size

/-- One turn of `flush_cache` keeps the content, cleans its block and makes no
other block dirty. -/
theorem flushBlock_returns {st : CacheState} {ideal : BlockSector → Sector}
    (h : Coherent st.lines st.device.sectors ideal) (hr : InRange st) (i : Fin cacheSize) :
    Returns (flushBlock i) st fun _ st' =>
      Coherent st'.lines st'.device.sectors ideal ∧ InRange st' ∧
        ∀ j, (st'.lines j).mustFlush = true → j ≠ i ∧ (st.lines j).mustFlush = true := by
  unfold flushBlock
  rw [returns_get_bind]
  have hflush : ((st.cache.cachedBlocks i).dirty && (st.cache.cachedBlocks i).valid) =
      (st.lines i).mustFlush := Bool.and_comm ..
  have hcoh := h.flush i
  simp only [hflush]
  split_ifs with hf
  · have hv : (st.lines i).valid = true := (Bool.and_eq_true_iff.1 hf).1
    refine (blockWrite_returns _ (hr i hv)).seq fun _ st₁ h₁ => ?_
    subst h₁
    rw [returns_modify]
    rw [Coherent.writeBack, if_pos hf] at hcoh
    refine ⟨?_, fun j hj => ?_, fun j hj => ?_⟩
    · rw [lines_update, lines_writeDevice]
      exact hcoh
    · rw [lines_update, lines_writeDevice] at hj ⊢
      by_cases hji : j = i
      · subst hji
        rw [Function.update_self] at hj ⊢
        exact hr j hj
      · rw [Function.update_of_ne hji] at hj ⊢
        exact hr j hj
    · rw [lines_update, lines_writeDevice] at hj
      by_cases hji : j = i
      · subst hji
        simp [Line.mustFlush, CachedBlock.line] at hj
      · rw [Function.update_of_ne hji] at hj
        exact ⟨hji, hj⟩
  · rw [returns_pure]
    refine ⟨h, hr, fun j hj => ⟨?_, hj⟩⟩
    rintro rfl
    exact hf hj

/-- A flush keeps the content and leaves the blocks it passed clean. -/
theorem flushBlocks_returns {ideal : BlockSector → Sector} (is : List (Fin cacheSize)) :
    ∀ {st : CacheState}, Coherent st.lines st.device.sectors ideal → InRange st →
      Returns (flushBlocks is) st fun _ st' => Coherent st'.lines st'.device.sectors ideal ∧
        ∀ j, (st'.lines j).mustFlush = true → j ∉ is ∧ (st.lines j).mustFlush = true := by
  induction is with
  | nil =>
    intro st h hr
    rw [flushBlocks, returns_pure]
    exact ⟨h, fun j hj => ⟨List.not_mem_nil, hj⟩⟩
  | cons i is ih =>
    intro st h hr
    rw [flushBlocks]
    refine (flushBlock_returns h hr i).seq fun _ st₁ h₁ => ?_
    obtain ⟨hcoh, hr₁, hkeep⟩ := h₁
    refine (ih hcoh hr₁).mono fun _ st₂ h₂ => ⟨h₂.1, fun j hj => ?_⟩
    obtain ⟨hnot, hj₁⟩ := h₂.2 j hj
    obtain ⟨hne, hj₀⟩ := hkeep j hj₁
    exact ⟨by simp [hne, hnot], hj₀⟩

/-- **After `flush_cache` the device holds the content.** -/
theorem flushCache_returns {st : CacheState} {ideal : BlockSector → Sector} (h : CacheOk st ideal) :
    Returns flushCache st fun _ st' => st'.device.sectors = ideal := by
  unfold flushCache
  refine (acquireCacheLock_returns h.unlocked).seq fun _ st₁ h₁ => ?_
  subst h₁
  have hcoherent : Coherent (st.setLocked true).lines (st.setLocked true).device.sectors ideal :=
    h.coherent
  have hrange : InRange (st.setLocked true) := h.inRange
  refine (flushBlocks_returns _ hcoherent hrange).mono fun _ st' h' => ?_
  refine h'.1.store_eq_of_clean fun i => ?_
  by_contra hd
  exact (h'.2 i (by simpa using hd)).1 (List.mem_finRange i)

end Filesys
end CS162

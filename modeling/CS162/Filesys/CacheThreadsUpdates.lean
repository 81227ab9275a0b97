/-
# Updates of the cache under several threads

`projects1-3/src/filesys/inode.c`, lines 32-152: what becomes of the bytes a
`cache_write` of one of several threads has written.

`NoLostUpdate` is what the locks are for.  It holds in every state of every run
in which no victim is written to between its choice and its locking, for every
sector that no block is being recycled from or to; while a dirty block is being
recycled its bytes are in the block, and `evict_and_replace` puts them on the
device (`noLostUpdate_of_fresh`).  Two threads suffice for a run in which a
victim is written to in between, and there the update is lost (`lostUpdate`):
the first thread misses, refills block `0` and gives it back before it has
written to it; the second finds it clean, decides not to flush it, and waits for
its lock until the first has written and returned.
-/

import CS162.Filesys.CacheThreadsSafe

namespace CS162
namespace Filesys

open CS162.Basis

/-! ### The property -/

/-- The call writes byte `j` of the sector. -/
def WriteCall.Covers (w : WriteCall) (sec : BlockSector) (j : Fin 512) : Prop :=
  w.sec = sec ∧ w.offset ≤ j.val ∧ j.val < w.offset + w.buff.length

namespace SharedCache

/-- `bytes` hold what the calls that have returned wrote to the sector and no
later call replaced. -/
def Keeps (s : SharedCache) (sec : BlockSector) (bytes : Sector) : Prop :=
  ∀ n ∈ s.returned, ∀ w, s.log[n]? = some w → ∀ j, w.Covers sec j →
    (∀ w' ∈ s.log.drop (n + 1), ¬w'.Covers sec j) → w.buff[j.val - w.offset]? = some (bytes j)

/-- **No lost update**: the current content of every sector holds what was
written to it, and after a `flush_cache` the device does. -/
def NoLostUpdate (s : SharedCache) : Prop :=
  ∀ sec, s.Keeps sec (s.content sec) ∧ s.Keeps sec ((flushAll s.st).device.sectors sec)

/-- A block is being recycled from the sector, which it has to be flushed to, or
to the sector. -/
def InFlight (s : SharedCache) (sec : BlockSector) : Prop :=
  ∃ i old flush, s.recycling i = some (old, flush) ∧
    (old = sec ∧ flush = true ∨ (s.line i).key = sec)

end SharedCache

/-! ### The writes that have returned are in the log -/

/-- The position in the log a thread's call has got. -/
def Pc.wrote : Pc → Option ℕ
  | relDone n _ | done n => some n
  | _ => none

theorem sweepStep_log {s s' : SharedCache} {w : WriteCall} {q : Pc}
    (h : s.sweepStep w = some (s', q)) : s'.log = s.log ∧ s'.returned = s.returned ∧
      q.wrote = none := by
  unfold SharedCache.sweepStep at h
  simp only at h
  split_ifs at h
  all_goals
    obtain ⟨rfl, rfl⟩ := Prod.mk.inj (Option.some.inj h)
    exact ⟨rfl, rfl, rfl⟩

theorem findVictimStep_log {s s' : SharedCache} {w : WriteCall} {q : Pc}
    (h : s.findVictimStep w = some (s', q)) : s'.log = s.log ∧ s'.returned = s.returned ∧
      q.wrote = none := by
  unfold SharedCache.findVictimStep at h
  split at h
  · obtain ⟨rfl, rfl⟩ := Prod.mk.inj (Option.some.inj h)
    exact ⟨rfl, rfl, rfl⟩
  · exact sweepStep_log h

/-- What a thread knows of the log: the position its call has got is in it. -/
def Logged (p : Pc) (s : SharedCache) : Prop :=
  ∀ n, p.wrote = some n → n < s.log.length

theorem Logged.of_none {p : Pc} {s : SharedCache} (h : p.wrote = none) : Logged p s := by
  intro n hn
  rw [h] at hn
  cases hn

/-- The log only grows, and a call returns after its `memcpy`. -/
theorem logProof : Proof CacheCode (fun p l => l ∈ p.locks)
    (fun s => ∀ n ∈ s.returned, n < s.log.length) (fun _ _ => True) Logged where
  acquire p s l q _ hK _ hc := by
    cases hc <;> exact .of_none rfl
  release p s l q _ hK hc := by
    refine ⟨trivial, ?_⟩
    cases hc with
    | relDone => exact hK
    | _ => exact .of_none rfl
  run p s s' q hI hK hc := by
    have hgrow : ∀ {s' : SharedCache}, s.log.length ≤ s'.log.length →
        ∀ p', (∀ l, ¬(l ∈ p.locks ∧ l ∈ p'.locks)) → Logged p' s → Logged p' s' :=
      fun hle p' _ h n hn => (h n hn).trans_le hle
    cases hc with
    | findVictim h =>
      obtain ⟨hlog, hret, hq⟩ := findVictimStep_log h
      refine ⟨?_, .of_none hq, fun _ _ _ => trivial, hgrow (by rw [hlog])⟩
      rw [hlog, hret]
      exact hI
    | sweep h =>
      obtain ⟨hlog, hret, hq⟩ := sweepStep_log h
      refine ⟨?_, .of_none hq, fun _ _ _ => trivial, hgrow (by rw [hlog])⟩
      rw [hlog, hret]
      exact hI
    | store =>
      refine ⟨fun n hn => ?_, fun n hn => ?_, fun _ _ _ => trivial, hgrow (by simp)⟩
      · have := hI n hn
        rw [List.length_append]
        omega
      · obtain rfl : s.log.length = n := by simpa [Pc.wrote] using hn
        simp
    | @done _ m =>
      refine ⟨fun n hn => ?_, .of_none rfl, fun _ _ _ => trivial, hgrow le_rfl⟩
      rcases List.mem_cons.1 hn with rfl | hn
      · exact hK n rfl
      · exact hI n hn
    | _ => exact ⟨hI, .of_none rfl, fun _ _ _ => trivial, hgrow le_rfl⟩

/-! ### Runs whose steps are fresh -/

theorem freshDiscipline : Discipline FreshCode fun p l => l ∈ p.locks where
  acquire p s l q h := cacheDiscipline.acquire p s l q h.1
  release p s l q h := cacheDiscipline.release p s l q h.1
  run p s s' q h := cacheDiscipline.run p s s' q h.1

/-- Writes that leave a byte alone. -/
theorem foldl_writeThrough_outside {sec : BlockSector} {j : Fin 512} (ws : List WriteCall)
    (sectors : BlockSector → Sector) (h : ∀ w ∈ ws, ¬w.Covers sec j) :
    ws.foldl writeThrough sectors sec j = sectors sec j := by
  induction ws generalizing sectors with
  | nil => rfl
  | cons w ws ih =>
    rw [List.foldl_cons, ih _ fun v hv => h v (List.mem_cons_of_mem _ hv)]
    have hno := h w List.mem_cons_self
    unfold writeThrough
    by_cases hsec : w.sec = sec
    · rw [← hsec, Function.update_self]
      refine copyInto_outside _ ?_
      by_contra hin
      exact hno ⟨hsec, by omega, by omega⟩
    · rw [Function.update_of_ne (Ne.symm hsec)]

/-- A byte a call of the run wrote and no later one replaced is in the result. -/
theorem foldl_writeThrough_inside {w : WriteCall} {sec : BlockSector} {j : Fin 512}
    (pre post : List WriteCall) (sectors : BlockSector → Sector) (hw : w.Covers sec j)
    (hlater : ∀ w' ∈ post, ¬w'.Covers sec j) :
    w.buff[j.val - w.offset]? = some ((pre ++ w :: post).foldl writeThrough sectors sec j) := by
  obtain ⟨rfl, hle, hlt⟩ := hw
  rw [List.foldl_append, List.foldl_cons, foldl_writeThrough_outside _ _ hlater, writeThrough,
    Function.update_self, copyInto_inside _ hle (by omega), List.getElem?_eq_getElem]

theorem SharedCache.keeps_logged {s : SharedCache} (sectors : BlockSector → Sector)
    {sec : BlockSector} {bytes : Sector} (h : bytes = s.logged sectors sec) :
    s.Keeps sec bytes := by
  intro n _ w hw j hj hlater
  obtain ⟨hn, rfl⟩ := List.getElem?_eq_some_iff.1 hw
  have hsplit : s.log.take n ++ s.log[n] :: s.log.drop (n + 1) = s.log := by
    rw [← List.drop_eq_getElem_cons hn, List.take_append_drop]
  have hbyte := foldl_writeThrough_inside (s.log.take n) _ sectors hj hlater
  rw [hsplit] at hbyte
  rw [hbyte, h, SharedCache.logged]

/-- A block that holds a sector not in flight holds it as itself. -/
theorem SharedCache.recycling_of_holds {s : SharedCache} {sec : BlockSector} {i : Fin cacheSize}
    (h : ¬s.InFlight sec) (hi : (s.line i).Holds sec ∨ (s.heldLine i).Holds sec) :
    s.recycling i = none := by
  by_contra hne
  obtain ⟨⟨old, f⟩, hrec⟩ := Option.ne_none_iff_exists'.1 hne
  rcases hi with hi | hi
  · exact h ⟨i, old, f, hrec, .inr hi.2⟩
  · rw [SharedCache.heldLine_of_some hrec] at hi
    exact h ⟨i, old, f, hrec, .inl ⟨hi.2, hi.1⟩⟩

/-- The current content of a sector not in flight is the result of the logged writes. -/
theorem CacheInv.content_eq {s : SharedCache} {sectors : BlockSector → Sector} {sec : BlockSector}
    (hI : CacheInv sectors s) (h : ¬s.InFlight sec) : s.content sec = s.logged sectors sec := by
  unfold SharedCache.content CacheState.content
  split
  · next i hi =>
    have hline : (s.line i).Holds sec := cacheSearch_some hi
    have hheld := SharedCache.heldLine_of_none (SharedCache.recycling_of_holds h (.inl hline))
    have hdata := hI.coherent.cached_eq (i := i) (k := sec) (by rw [hheld]; exact hline)
    rw [hheld] at hdata
    exact hdata
  · next hi =>
    refine hI.coherent.uncached _ fun i hheld => ?_
    have hrec := SharedCache.recycling_of_holds h (.inr hheld)
    rw [SharedCache.heldLine_of_none hrec] at hheld
    exact cacheSearch_none hi i hheld

/-- `flush_cache` leaves it on the device. -/
theorem CacheInv.flushed_eq {s : SharedCache} {sectors : BlockSector → Sector} {sec : BlockSector}
    (hI : CacheInv sectors s) (h : ¬s.InFlight sec) :
    (SharedCache.flushAll s.st).device.sectors sec = s.logged sectors sec := by
  set s' : SharedCache := { s with st := SharedCache.flushAll s.st } with hs'
  have hI' : CacheInv sectors s' := hI.flushAll
  have h' : ¬s'.InFlight sec := by
    rintro ⟨i, old, f, hrec, hor⟩
    rw [show (s'.line i).key = (s.line i).key from (flushAll_label s.st i).1] at hor
    exact h ⟨i, old, f, hrec, hor⟩
  by_cases hex : ∃ i, (s'.heldLine i).Holds sec
  · obtain ⟨i, hi⟩ := hex
    have hheld := SharedCache.heldLine_of_none (SharedCache.recycling_of_holds h' (.inr hi))
    have hclean : (s'.line i).mustFlush = false := flushAll_clean s.st i
    rw [← hheld, Line.mustFlush, hi.1, Bool.true_and] at hclean
    have hst := hI'.coherent.clean i hi.1 hclean
    rw [hi.2] at hst
    exact hst
  · exact hI'.coherent.uncached _ fun i hi => hex ⟨i, hi⟩

/-- The bytes of a block being recycled with a flush are those of its old sector. -/
theorem CacheInv.recycled_data {s : SharedCache} {sectors : BlockSector → Sector}
    {sec : BlockSector} {i : Fin cacheSize} (hI : CacheInv sectors s)
    (h : s.recycling i = some (sec, true)) : (s.line i).data = s.logged sectors sec := by
  have hheld := SharedCache.heldLine_of_some h
  have hdata := hI.coherent.cached_eq (i := i) (k := sec) (by rw [hheld]; exact ⟨rfl, rfl⟩)
  rw [hheld] at hdata
  exact hdata

section Runs

variable {T : Type} [DecidableEq T]

omit [DecidableEq T] in
theorem threadsInit_owned (device : Device) (junk : Fin cacheSize → BlockSector) :
    Owned (fun p l => l ∈ Pc.locks p) (threadsInit T device junk) := by
  intro t l
  simp [threadsInit, Pc.locks]

omit [DecidableEq T] in
theorem threadsInit_holding (device : Device) (junk : Fin cacheSize → BlockSector) :
    Holding (fun p l => l ∈ Pc.locks p) (CacheInv device.sectors) BlockFree Knows
      (threadsInit T device junk) where
  owned := threadsInit_owned device junk
  global := by
    have hvalid : ∀ i, ((threadsInit T device junk).shared.line i).valid = false := fun _ => rfl
    refine ⟨Coherent.init hvalid, fun i j k hi => ?_, fun i j hi => absurd rfl hi,
      fun i hi => absurd rfl hi⟩
    rw [Line.Holds, hvalid] at hi
    exact absurd hi.1 (by simp)
  known t := by
    constructor <;> simp [threadsInit, Pc.searched, Pc.target, Pc.decision, Pc.settled,
      Pc.evicting, Pc.locks]
  free l _ := by
    cases l <;> trivial

/-- **No update is lost while victims are not written to in between.**  In every
state reached by fresh steps, every returned write is in the log; a sector not in
flight keeps the bytes written to it, and a flush leaves them on the device; a
block recycled from a sector with a flush has them, and its eviction leaves them
on the device. -/
theorem noLostUpdate_of_fresh (device : Device) (junk : Fin cacheSize → BlockSector)
    {c : Config T LockId Pc SharedCache} (h : Reach FreshCode (threadsInit T device junk) c) :
    (∀ n ∈ c.shared.returned, n < c.shared.log.length) ∧ ∀ sec,
      (¬c.shared.InFlight sec → c.shared.Keeps sec (c.shared.content sec) ∧
        c.shared.Keeps sec ((SharedCache.flushAll c.shared.st).device.sectors sec)) ∧
      ∀ i, c.shared.recycling i = some (sec, true) →
        c.shared.Keeps sec (c.shared.line i).data ∧
        c.shared.Keeps sec ((c.shared.st.evict i sec true).device.sectors sec) := by
  have hall := Reach.invariant freshDiscipline (cacheProof device.sectors)
    (threadsInit_holding device junk) h
  have hI := hall.global
  refine ⟨?_, fun sec => ⟨fun hno => ⟨?_, ?_⟩, fun i hrec => ?_⟩⟩
  · have hcode : Reach CacheCode (threadsInit T device junk) c := h.mono fun _ _ _ ha => ha.1
    refine (Reach.invariant cacheDiscipline logProof ⟨threadsInit_owned device junk, ?_, ?_, ?_⟩
      hcode).global
    · simp [threadsInit]
    · exact fun t => .of_none rfl
    · exact fun _ _ => trivial
  · exact SharedCache.keeps_logged _ (hI.content_eq hno)
  · exact SharedCache.keeps_logged _ (hI.flushed_eq hno)
  · have hdata := hI.recycled_data hrec
    refine ⟨SharedCache.keeps_logged _ hdata, SharedCache.keeps_logged device.sectors ?_⟩
    rw [← hdata]
    exact Function.update_self ..

end Runs

end Filesys
end CS162

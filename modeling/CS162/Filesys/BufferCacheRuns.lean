/-
# Runs of the buffer cache

`projects1-3/src/filesys/inode.c`, lines 89-152: sequences of `cache_read` and
`cache_write` by one thread, after `buffer_cache_init`.

Writes through the cache, followed by `flush_cache`, leave on the device what
the same writes straight to it leave (`cacheWrites_refines_writeThrough`): the
write-through device is the abstract model of the cache.  Reads do not deliver
what was written, because `cache_read` copies the wrong way;
`readsYourWrites_iff` says for which runs that goes unnoticed.
-/

import Mathlib.Data.List.Induction
import CS162.Filesys.BufferCacheContent

namespace CS162
namespace Filesys

open CS162.Basis

/-! ### Runs of writes -/

/-- A call `cache_write (sec, buff, offset, |buff|)`. -/
structure WriteCall where
  sec : BlockSector
  buff : List UInt8
  offset : ℕ

/-- The call names a sector of the device and stays inside it. -/
def WriteCall.Ok (w : WriteCall) (device : Device) : Prop :=
  w.sec.toNat < device.size ∧ w.offset + w.buff.length ≤ blockSectorSize

/-- The calls one after the other. -/
def cacheWrites (tries : ℕ) : List WriteCall → CacheProg Unit
  | [] => return ()
  | w :: ws => do
    cacheWrite tries w.sec w.buff w.offset
    cacheWrites tries ws

/-- The same write straight to the device. -/
def writeThrough (sectors : BlockSector → Sector) (w : WriteCall) : BlockSector → Sector :=
  Function.update sectors w.sec (copyInto (sectors w.sec) w.offset w.buff)

/-- The same of writes alone. -/
theorem cacheWrites_returns (tries : ℕ) (ws : List WriteCall) :
    ∀ {st : CacheState} {ideal : BlockSector → Sector}, CacheOk st ideal →
      (∀ w ∈ ws, w.Ok st.device) →
      Returns (cacheWrites (tries + 1) ws) st fun _ st' => CacheOk st' (ws.foldl writeThrough ideal) := by
  induction ws with
  | nil =>
    intro st ideal h _
    rw [cacheWrites, returns_pure]
    exact h
  | cons w ws ih =>
    intro st ideal h hws
    rw [cacheWrites]
    obtain ⟨hs, hlen⟩ := hws w List.mem_cons_self
    refine (cacheWrite_returns h hs hlen tries).seq fun _ st₁ h₁ => ?_
    refine ih h₁.1 fun w' hw' => ?_
    obtain ⟨hs', hlen'⟩ := hws w' (List.mem_cons_of_mem _ hw')
    exact ⟨h₁.2 ▸ hs', hlen'⟩

/-- **Write-back refines write-through.**  From any device, after any writes
through the cache: no two valid blocks carry one sector, every sector's current
content is what the writes straight to the device give, and `flush_cache` leaves
exactly that on the device.  The first part is about every state between two
calls, the writes `ws` being arbitrary; one try is enough for every call. -/
theorem cacheWrites_refines_writeThrough (device : Device) (junk : Fin cacheSize → BlockSector)
    (tries : ℕ) (ws : List WriteCall) (hws : ∀ w ∈ ws, w.Ok device) :
    ∃ st, (cacheWrites (tries + 1) ws).run (bufferCacheInit device junk) = some ((), st) ∧
      (∀ i j, (st.cache.cachedBlocks i).valid = true → (st.cache.cachedBlocks j).valid = true →
        (st.cache.cachedBlocks i).sector = (st.cache.cachedBlocks j).sector → i = j) ∧
      (∀ sector, st.content sector = ws.foldl writeThrough device.sectors sector) ∧
      ∃ st', flushCache.run st = some ((), st') ∧
        st'.device.sectors = ws.foldl writeThrough device.sectors := by
  obtain ⟨_, st, hrun, hok⟩ := cacheWrites_returns tries ws (bufferCacheInit_ok device junk) hws
  obtain ⟨_, st', hflush, hdev⟩ := flushCache_returns hok
  exact ⟨st, hrun, fun i j hi hj hij => hok.coherent.unique i j _ ⟨hi, rfl⟩ ⟨hj, hij.symm⟩,
    hok.content_eq, st', hflush, hdev⟩

/-- The hypothesis is met: two writes to one sector of a device of one sector. -/
theorem cacheWrites_refines_writeThrough_two :
    ∃ st, (cacheWrites 1 [⟨0, [1, 2], 0⟩, ⟨0, [3], 511⟩]).run
        (bufferCacheInit ⟨1, fun _ => Sector.zero⟩ fun _ => 0) = some ((), st) ∧
      ∀ sector, st.content sector = [⟨0, [1, 2], 0⟩, ⟨0, [3], 511⟩].foldl writeThrough
        (fun _ => Sector.zero) sector := by
  have h := cacheWrites_refines_writeThrough ⟨1, fun _ => Sector.zero⟩ (fun _ => 0)
    0 [⟨0, [1, 2], 0⟩, ⟨0, [3], 511⟩] (by
      intro w hw
      simp only [List.mem_cons, List.not_mem_nil, or_false] at hw
      rcases hw with rfl | rfl <;> exact ⟨by decide, by decide⟩)
  obtain ⟨st, hrun, _, hcontent, _⟩ := h
  exact ⟨st, hrun, hcontent⟩

/-! ### Runs of reads and writes -/

/-- A call of the cache: `cache_read (sec, buff, offset, |buff|)` or
`cache_write (sec, buff, offset, |buff|)`. -/
inductive CacheCall where
  | read (sec : BlockSector) (buff : List UInt8) (offset : ℕ)
  | write (w : WriteCall)

namespace CacheCall

/-- The call names a sector of the device and stays inside it. -/
def Ok (device : Device) : CacheCall → Prop
  | read sec buff offset => WriteCall.Ok ⟨sec, buff, offset⟩ device
  | write w => w.Ok device

/-- The call; what its buffer holds afterwards is returned. -/
def run (tries : ℕ) : CacheCall → CacheProg (List UInt8)
  | read sec buff offset => cacheRead tries sec buff offset
  | write w => do
    cacheWrite tries w.sec w.buff w.offset
    return w.buff

/-- What the call should do to the content: a read, nothing. -/
def apply (sectors : BlockSector → Sector) : CacheCall → BlockSector → Sector
  | read _ _ _ => sectors
  | write w => writeThrough sectors w

end CacheCall

/-- The calls one after the other. -/
def cacheCalls (tries : ℕ) : List CacheCall → CacheProg Unit
  | [] => return ()
  | c :: cs => do
    let _ ← c.run tries
    cacheCalls tries cs

/-- **Read your writes**: every `cache_read` of the run leaves in its buffer the
bytes the preceding writes put there and changes no sector's content. -/
def ReadsYourWrites (device : Device) (junk : Fin cacheSize → BlockSector) (tries : ℕ)
    (calls : List CacheCall) : Prop :=
  ∀ pre sec buff offset post, calls = pre ++ .read sec buff offset :: post →
    ∃ st, (cacheCalls tries pre).run (bufferCacheInit device junk) = some ((), st) ∧
      ∃ out st', (cacheRead tries sec buff offset).run st = some (out, st') ∧
        out = slice (pre.foldl CacheCall.apply device.sectors sec) offset buff.length ∧
        ∀ sector, st'.content sector = st.content sector

/-- Every read of the run is given a buffer that holds the bytes it asks for. -/
def BuffersHold (sectors : BlockSector → Sector) (calls : List CacheCall) : Prop :=
  ∀ pre sec buff offset post, calls = pre ++ .read sec buff offset :: post →
    buff = slice (pre.foldl CacheCall.apply sectors sec) offset buff.length

theorem BuffersHold.tail {sectors : BlockSector → Sector} {c : CacheCall} {cs : List CacheCall}
    (h : BuffersHold sectors (c :: cs)) : BuffersHold (c.apply sectors) cs :=
  fun pre sec buff offset post hcs => h (c :: pre) sec buff offset post (by rw [hcs]; rfl)

/-- Any calls keep the cache in agreement with what was written. -/
theorem cacheCalls_returns (tries : ℕ) (calls : List CacheCall) :
    ∀ {st : CacheState} {ideal : BlockSector → Sector}, CacheOk st ideal →
      (∀ c ∈ calls, c.Ok st.device) → BuffersHold ideal calls →
      Returns (cacheCalls (tries + 1) calls) st fun _ st' =>
        CacheOk st' (calls.foldl CacheCall.apply ideal) ∧ st'.device.size = st.device.size := by
  induction calls with
  | nil =>
    intro st ideal h _ _
    rw [cacheCalls, returns_pure]
    exact ⟨h, rfl⟩
  | cons c cs ih =>
    intro st ideal h hok hbuff
    have hstep : Returns (c.run (tries + 1)) st fun _ st' =>
        CacheOk st' (c.apply ideal) ∧ st'.device.size = st.device.size := by
      have hc := hok c List.mem_cons_self
      cases c with
      | read sec buff offset =>
        refine (cacheRead_returns h hc.1 hc.2 tries).mono fun _ st' h' => ⟨h'.2.2 ?_, h'.2.1⟩
        exact hbuff [] sec buff offset cs rfl
      | write w =>
        refine (cacheWrite_returns h hc.1 hc.2 tries).seq fun _ st' h' => ?_
        rw [returns_pure]
        exact h'
    rw [cacheCalls]
    refine hstep.seq fun _ st₁ h₁ => ?_
    refine (ih h₁.1 (fun c' hc' => ?_) hbuff.tail).mono fun _ st₂ h₂ => ⟨h₂.1, h₂.2.trans h₁.2⟩
    have hc := hok c' (List.mem_cons_of_mem _ hc')
    cases c' with
    | read sec buff offset => exact ⟨h₁.2 ▸ hc.1, hc.2⟩
    | write w => exact ⟨h₁.2 ▸ hc.1, hc.2⟩

/-- The state a run of calls leaves, when its reads' buffers hold what they ask for. -/
theorem cacheCalls_ok {device : Device} (junk : Fin cacheSize → BlockSector)
    (tries : ℕ) {calls : List CacheCall} (hok : ∀ c ∈ calls, c.Ok device)
    (hbuff : BuffersHold device.sectors calls) :
    ∃ st, (cacheCalls (tries + 1) calls).run (bufferCacheInit device junk) = some ((), st) ∧
      CacheOk st (calls.foldl CacheCall.apply device.sectors) ∧ st.device.size = device.size := by
  obtain ⟨_, st, hrun, h⟩ := cacheCalls_returns tries calls (bufferCacheInit_ok device junk) hok hbuff
  exact ⟨st, hrun, h⟩

/-- A run that reads its writes was given only buffers that hold the bytes asked
for: `cache_read` does not change its buffer.  By induction on the calls made so
far, the state before each read being known from the reads before it. -/
theorem ReadsYourWrites.buffersHold {device : Device} {junk : Fin cacheSize → BlockSector}
    {tries : ℕ} {calls : List CacheCall} (hok : ∀ c ∈ calls, c.Ok device)
    (h : ReadsYourWrites device junk (tries + 1) calls) (done : List CacheCall) :
    ∀ rest, calls = done ++ rest → BuffersHold device.sectors done := by
  induction done using List.reverseRecOn with
  | nil =>
    intro rest _ pre sec buff offset post hp
    simp at hp
  | append_singleton done c ih =>
    intro rest hrest
    have hdone : BuffersHold device.sectors done := ih (c :: rest) (by simpa using hrest)
    intro pre sec buff offset post hp
    rcases List.eq_nil_or_concat post with rfl | ⟨post, c', rfl⟩
    · obtain ⟨rfl, hc⟩ := List.append_inj' hp rfl
      obtain rfl : c = .read sec buff offset := by simpa using hc
      obtain ⟨st, hrun, out, st', hread, hout, -⟩ :=
        h done sec buff offset rest (by simpa using hrest)
      have hin : ∀ c ∈ done, c.Ok device := fun c hc => hok c (by simp [hrest, hc])
      obtain ⟨st₁, hrun₁, hst, hsize⟩ := cacheCalls_ok junk tries hin hdone
      obtain rfl : st = st₁ := by
        rw [hrun] at hrun₁
        exact congrArg Prod.snd (Option.some.inj hrun₁)
      have hread_ok := hok (.read sec buff offset) (by simp [hrest])
      obtain ⟨out₁, st₂, hread₁, hsame, -⟩ :=
        cacheRead_returns hst (hsize ▸ hread_ok.1) hread_ok.2 tries
      rw [hread] at hread₁
      have hout₁ : out = out₁ := congrArg Prod.fst (Option.some.inj hread₁)
      rw [← hout, hout₁, hsame]
    · refine hdone pre sec buff offset post ?_
      have hp' : done ++ [c] = (pre ++ .read sec buff offset :: post) ++ [c'] := by simpa using hp
      exact (List.append_inj' hp' rfl).1

/-- **When `cache_read` reads.**  Its `memcpy` goes from the buffer into the
block, so a run reads its writes if and only if every read is given a buffer
that holds the bytes it asks for already. -/
theorem readsYourWrites_iff (device : Device) (junk : Fin cacheSize → BlockSector) (tries : ℕ)
    (calls : List CacheCall) (hok : ∀ c ∈ calls, c.Ok device) :
    ReadsYourWrites device junk (tries + 1) calls ↔ BuffersHold device.sectors calls := by
  constructor
  · exact fun h => h.buffersHold hok calls [] (by simp)
  · intro hbuff pre sec buff offset post hcalls
    have hpre : BuffersHold device.sectors pre := fun p s b o q hp =>
      hbuff p s b o (q ++ .read sec buff offset :: post) (by simp [hcalls, hp])
    have hin : ∀ c ∈ pre, c.Ok device := fun c hc => hok c (by simp [hcalls, hc])
    obtain ⟨st, hrun, hst, hsize⟩ := cacheCalls_ok junk tries hin hpre
    have hread := hok (.read sec buff offset) (by simp [hcalls])
    obtain ⟨out, st', hrun', hout, -, hok'⟩ :=
      cacheRead_returns hst (hsize ▸ hread.1) hread.2 tries
    have hbytes := hbuff pre sec buff offset post hcalls
    refine ⟨st, hrun, out, st', hrun', hout.trans hbytes, fun sector => ?_⟩
    rw [(hok' hbytes).content_eq, hst.content_eq]

/-- The hypothesis is met by one read of a device of one sector, which reads the
zero there because its buffer holds a zero. -/
theorem readsYourWrites_iff_zero :
    ReadsYourWrites ⟨1, fun _ => Sector.zero⟩ (fun _ => 0) 1 [.read 0 [0] 0] ↔
      BuffersHold (fun _ => Sector.zero) [.read 0 [0] 0] :=
  readsYourWrites_iff ⟨1, fun _ => Sector.zero⟩ (fun _ => 0) 0 [.read 0 [0] 0] (by
    intro c hc
    obtain rfl := List.mem_singleton.1 hc
    exact ⟨by decide, by decide⟩)

/-- **A read of a fresh cache returns the caller's own byte.**  On a device of
zeros, `cache_read (0, buff, 0, 1)` with `buff[0] = 1` leaves the `1`. -/
theorem not_readsYourWrites :
    ¬ReadsYourWrites ⟨1, fun _ => Sector.zero⟩ (fun _ => 0) 1 [.read 0 [1] 0] := by
  intro h
  obtain ⟨st, hrun, out, st', hread, hout, -⟩ := h [] 0 [1] 0 [] rfl
  obtain rfl : bufferCacheInit ⟨1, fun _ => Sector.zero⟩ (fun _ => 0) = st :=
    congrArg Prod.snd (Option.some.inj hrun)
  have hspec : Returns (cacheRead 1 0 [1] 0) (bufferCacheInit ⟨1, fun _ => Sector.zero⟩ fun _ => 0)
      fun out _ => out = [1] :=
    (cacheRead_returns (bufferCacheInit_ok ⟨1, fun _ => Sector.zero⟩ fun _ => 0)
      (by decide) (by decide) 0).mono fun _ _ h => h.1
  obtain ⟨out₁, st₁, hread₁, hsame⟩ := hspec
  rw [hread] at hread₁
  have hout₁ : out = out₁ := congrArg Prod.fst (Option.some.inj hread₁)
  rw [hout₁, hsame] at hout
  have hbyte := congrArg (fun l => l[0]?) hout
  simp only [getElem?_slice] at hbyte
  exact absurd hbyte (by decide)

end Filesys
end CS162

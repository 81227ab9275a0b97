/-
# No update is lost when victims are not written to in between

`projects1-3/src/filesys/inode.c`, lines 32-152, any number of threads.

`get_cached_block` reads the victim's `dirty` bit before it takes the victim's
lock.  `Fresh` is the condition under which that does no harm: when the lock is
taken the victim is as dirty as it was when the flush was decided.  Along every
interleaving whose steps are fresh the blocks, the evictions under way and the
device together hold the result of the logged writes (`CacheInv`), by the rule
`Reach.invariant`: the invariant of a block's lock is that no eviction is under
way on it, and a thread that holds `buffer_cache->lock` and has passed some
blocks in `cache_search` knows that none of them holds its sector.
-/

import CS162.Filesys.CacheThreads

namespace CS162
namespace Filesys

open CS162.Basis

namespace SharedCache

/-- A block as its sector's content sees it: while it is being recycled it still
holds its old sector if that has to be flushed, and nothing otherwise. -/
def heldLine (s : SharedCache) (i : Fin cacheSize) : Line BlockSector Sector :=
  match s.recycling i with
  | none => s.line i
  | some (old, flush) => ⟨old, flush, flush, (s.line i).data⟩

/-- The result of the logged writes on the device's first content. -/
def logged (s : SharedCache) (sectors : BlockSector → Sector) : BlockSector → Sector :=
  s.log.foldl writeThrough sectors

end SharedCache

/-- The invariant of the shared state, over the device's first content. -/
structure CacheInv (sectors : BlockSector → Sector) (s : SharedCache) : Prop where
  coherent : Coherent s.heldLine s.st.device.sectors (s.logged sectors)
  labels : ∀ i j k, (s.line i).Holds k → (s.line j).Holds k → i = j
  single : ∀ i j, s.recycling i ≠ none → s.recycling j ≠ none → i = j
  recycled : ∀ i, s.recycling i ≠ none → (s.line i).valid = true ∧ (s.line i).dirty = false ∧
    ∀ j, ¬(s.heldLine j).Holds (s.line i).key

namespace Pc

/-- The sector searched for and the number of blocks passed. -/
def searched : Pc → Option (BlockSector × ℕ)
  | acqSearch w i | compare w i => some (w.sec, i.val)
  | relSearch w i false => some (w.sec, i.val + 1)
  | findVictim w | acqUse w _ | clearUse w _ | relUse w _ | sweep w | acqVictim w _ _ _
  | relabel w _ _ _ => some (w.sec, cacheSize)
  | _ => none

/-- The block `get_cached_block` found or refilled. -/
def target : Pc → Option (Fin cacheSize)
  | relSearch _ i true | relHit _ i | relEvict _ i | acqBlock _ i | store _ i => some i
  | _ => none

/-- The victim, its sector and the flush decision, once read. -/
def decision : Pc → Option (Fin cacheSize × BlockSector × Bool)
  | acqVictim _ i old f | relabel _ i old f => some (i, old, f)
  | _ => none

/-- The decision of a victim whose lock is held and which is not relabelled yet. -/
def settled : Pc → Option (Fin cacheSize × Bool)
  | relabel _ i _ f => some (i, f)
  | _ => none

/-- The block being recycled: its new sector, its old one and the decision. -/
def evicting : Pc → Option (Fin cacheSize × BlockSector × BlockSector × Bool)
  | relMiss w i old f | evict w i old f => some (i, w.sec, old, f)
  | _ => none

theorem cache_mem_of_searched {p : Pc} {k : BlockSector} {n : ℕ} (h : p.searched = some (k, n)) :
    .cache ∈ p.locks := by
  unfold searched at h
  split at h <;> first | cases h; done | simp [locks]

theorem cache_mem_of_decision {p : Pc} {d : Fin cacheSize × BlockSector × Bool}
    (h : p.decision = some d) : .cache ∈ p.locks := by
  unfold decision at h
  split at h <;> first | cases h; done | simp [locks]

theorem mem_of_settled {p : Pc} {i : Fin cacheSize} {f : Bool} (h : p.settled = some (i, f)) :
    .cache ∈ p.locks ∧ .block i ∈ p.locks := by
  unfold settled at h
  split at h
  · obtain ⟨rfl, -⟩ := Prod.mk.inj (Option.some.inj h)
    simp [locks]
  · cases h

theorem mem_of_evicting {p : Pc} {i : Fin cacheSize} {new old : BlockSector} {f : Bool}
    (h : p.evicting = some (i, new, old, f)) : .block i ∈ p.locks := by
  unfold evicting at h
  split at h
  · obtain ⟨rfl, -⟩ := Prod.mk.inj (Option.some.inj h)
    simp [locks]
  · obtain ⟨rfl, -⟩ := Prod.mk.inj (Option.some.inj h)
    simp [locks]
  · cases h

end Pc

/-- What a thread knows of the shared state at its program point. -/
structure Knows (p : Pc) (s : SharedCache) : Prop where
  passed : ∀ k n, p.searched = some (k, n) → ∀ j : Fin cacheSize, j.val < n →
    s.recycling j = none ∧ ¬(s.line j).Holds k
  target : ∀ i, p.target = some i → (s.line i).valid = true
  decided : ∀ i old flush, p.decision = some (i, old, flush) →
    ((s.line i).valid = true → (s.line i).key = old) ∧ (flush = true → (s.line i).mustFlush = true)
  settled : ∀ i flush, p.settled = some (i, flush) → (s.line i).mustFlush = flush
  evicting : ∀ i new old flush, p.evicting = some (i, new, old, flush) →
    s.recycling i = some (old, flush) ∧ (s.line i).key = new
  quiet : ∀ i, .block i ∈ p.locks → p.evicting = none → s.recycling i = none

/-- Nothing is being recycled while nobody holds a block. -/
def BlockFree : LockId → SharedCache → Prop
  | .cache, _ => True
  | .block i, s => s.recycling i = none

/-- **The condition.**  When a thread takes its victim's lock, the victim has to
be flushed exactly if it was decided to flush it. -/
def Fresh (p : Pc) (s : SharedCache) : Prop :=
  ∀ w i old flush, p = .acqVictim w i old flush → (s.line i).mustFlush = flush

/-- The actions that meet the condition. -/
def FreshCode (p : Pc) (s : SharedCache) (a : Act LockId Pc SharedCache) : Prop :=
  CacheCode p s a ∧ Fresh p s

/-! ### What a thread's statements show -/

/-- What the statements at `p` may show of what other threads rely on. -/
structure Guar (p : Pc) (s s' : SharedCache) : Prop where
  valid : ∀ j, (s.line j).valid = true → (s'.line j).valid = true
  block : ∀ j, .block j ∉ p.locks → s'.recycling j = s.recycling j ∧
    (s'.line j).key = (s.line j).key
  labels : .cache ∉ p.locks → ∀ j, (s'.line j).key = (s.line j).key ∧
    (s'.line j).valid = (s.line j).valid ∧ (s.recycling j = none → s'.recycling j = none) ∧
    ((s.line j).dirty = true → (s'.line j).dirty = true)
  both : .cache ∉ p.locks → ∀ j, .block j ∉ p.locks → s'.line j = s.line j

/-- Statements that leave lines and evictions alone. -/
theorem Guar.of_eq {p : Pc} {s s' : SharedCache} (hl : s'.line = s.line)
    (hr : s'.recycling = s.recycling) : Guar p s s' := by
  refine ⟨fun j h => ?_, fun j _ => ⟨by rw [hr], by rw [hl]⟩, fun _ j => ?_, fun _ j _ => by rw [hl]⟩
  · rw [hl]
    exact h
  · rw [hl, hr]
    exact ⟨rfl, rfl, id, id⟩

/-- **A thread keeps what it knows** through the statements of a thread that holds
none of its locks. -/
theorem Knows.stable {p p' : Pc} {s s' : SharedCache} (hg : Guar p s s')
    (hex : ∀ l, ¬(l ∈ p.locks ∧ l ∈ p'.locks)) (h : Knows p' s) : Knows p' s' := by
  have hnot : ∀ {l}, l ∈ p'.locks → l ∉ p.locks := fun hl hp => hex _ ⟨hp, hl⟩
  refine ⟨fun k n hk j hj => ?_, fun i hi => ?_, fun i old flush hd => ?_, fun i flush hd => ?_,
    fun i new old flush hd => ?_, fun i hi hd => ?_⟩
  · obtain ⟨hrec, hno⟩ := h.passed k n hk j hj
    obtain ⟨hkey, hvalid, hrec', -⟩ := hg.labels (hnot (Pc.cache_mem_of_searched hk)) j
    refine ⟨hrec' hrec, fun hh => hno ?_⟩
    exact ⟨hvalid ▸ hh.1, hkey ▸ hh.2⟩
  · exact hg.valid i (h.target i hi)
  · obtain ⟨hold, hflush⟩ := h.decided i old flush hd
    obtain ⟨hkey, hvalid, -, hdirty⟩ := hg.labels (hnot (Pc.cache_mem_of_decision hd)) i
    refine ⟨fun hv => hkey.trans (hold (hvalid ▸ hv)), fun hf => ?_⟩
    have hm := hflush hf
    rw [Line.mustFlush, Bool.and_eq_true] at hm ⊢
    exact ⟨hvalid.trans hm.1, hdirty hm.2⟩
  · obtain ⟨hc, hb⟩ := Pc.mem_of_settled hd
    rw [hg.both (hnot hc) i (hnot hb)]
    exact h.settled i flush hd
  · obtain ⟨hrec, hkey⟩ := hg.block i (hnot (Pc.mem_of_evicting hd))
    rw [hrec, hkey]
    exact h.evicting i new old flush hd
  · rw [(hg.block i (hnot hi)).1]
    exact h.quiet i hi hd

/-- The statements of a thread leave the free locks' invariants and the
knowledge of threads that hold none of its locks. -/
theorem Guar.frame {p : Pc} {s s' : SharedCache} (hg : Guar p s s') :
    (∀ l, l ∉ p.locks → BlockFree l s → BlockFree l s') ∧
      ∀ p', (∀ l, ¬(l ∈ p.locks ∧ l ∈ p'.locks)) → Knows p' s → Knows p' s' := by
  refine ⟨fun l hl hfree => ?_, fun p' hex hk => hk.stable hg hex⟩
  cases l with
  | cache => trivial
  | block j => exact ((hg.block j hl).1).trans hfree

/-- A program point that asks for less knows it too. -/
theorem Knows.mono {p q : Pc} {s : SharedCache} (h : Knows p s)
    (hsearched : ∀ k n, q.searched = some (k, n) → p.searched = some (k, n))
    (htarget : ∀ i, q.target = some i → p.target = some i)
    (hdecision : ∀ d, q.decision = some d → p.decision = some d)
    (hsettled : ∀ d, q.settled = some d → p.settled = some d)
    (hevicting : ∀ d, q.evicting = some d → p.evicting = some d)
    (hlocks : ∀ i, .block i ∈ q.locks → q.evicting = none →
      .block i ∈ p.locks ∧ p.evicting = none) : Knows q s where
  passed k n hk := h.passed k n (hsearched k n hk)
  target i hi := h.target i (htarget i hi)
  decided i old f hd := h.decided i old f (hdecision _ hd)
  settled i f hd := h.settled i f (hsettled _ hd)
  evicting i new old f hd := h.evicting i new old f (hevicting _ hd)
  quiet i hi hd := h.quiet i (hlocks i hi hd).1 (hlocks i hi hd).2

/-! ### Steps on the shared state -/

namespace SharedCache

theorem heldLine_of_none {s : SharedCache} {i : Fin cacheSize} (h : s.recycling i = none) :
    s.heldLine i = s.line i := by
  rw [heldLine, h]

theorem heldLine_of_some {s : SharedCache} {i : Fin cacheSize} {old : BlockSector} {f : Bool}
    (h : s.recycling i = some (old, f)) : s.heldLine i = ⟨old, f, f, (s.line i).data⟩ := by
  rw [heldLine, h]

/-- The line a block is held as depends on the block and its eviction only. -/
theorem heldLine_congr {s s' : SharedCache} {i : Fin cacheSize} (hl : s'.line i = s.line i)
    (hr : s'.recycling i = s.recycling i) : s'.heldLine i = s.heldLine i := by
  rw [heldLine, heldLine, hl, hr]

/-- A step that changes one block changes what that block is held as. -/
theorem heldLine_update {s s' : SharedCache} {i : Fin cacheSize}
    (hl : ∀ j, j ≠ i → s'.line j = s.line j) (hr : ∀ j, j ≠ i → s'.recycling j = s.recycling j) :
    s'.heldLine = Function.update s.heldLine i (s'.heldLine i) := by
  funext j
  by_cases hj : j = i
  · subst hj
    rw [Function.update_self]
  · rw [Function.update_of_ne hj]
    exact heldLine_congr (hl j hj) (hr j hj)

end SharedCache

theorem CacheInv.congr {sectors : BlockSector → Sector} {s s' : SharedCache}
    (h : CacheInv sectors s) (hl : s'.line = s.line) (hr : s'.recycling = s.recycling)
    (hd : s'.st.device = s.st.device) (hlog : s'.log = s.log) : CacheInv sectors s' := by
  have hheld : s'.heldLine = s.heldLine :=
    funext fun i => SharedCache.heldLine_congr (congrFun hl i) (congrFun hr i)
  have hlogged : s'.logged sectors = s.logged sectors := by
    rw [SharedCache.logged, SharedCache.logged, hlog]
  refine ⟨?_, ?_, ?_, ?_⟩
  · rw [hheld, hd, hlogged]
    exact h.coherent
  · rw [hl]
    exact h.labels
  · rw [hr]
    exact h.single
  · rw [hr, hl, hheld]
    exact h.recycled

/-- A thread that has passed every block may choose any as its victim. -/
theorem Knows.chosen {p : Pc} {s : SharedCache} {w : WriteCall}
    (h : Knows p s) (hp : p.searched = some (w.sec, cacheSize)) (i : Fin cacheSize) :
    Knows (s.chosen w i) s := by
  refine ⟨fun k n hk => ?_, ?_, fun j old f hd => ?_, ?_, ?_, ?_⟩
  · exact h.passed k n (hp.trans hk)
  · simp [SharedCache.chosen, Pc.target]
  · obtain ⟨rfl, rfl, rfl⟩ : i = j ∧ (s.line i).key = old ∧ (s.line i).mustFlush = f := by
      simpa [SharedCache.chosen, Pc.decision] using hd
    exact ⟨fun _ => rfl, id⟩
  · simp [SharedCache.chosen, Pc.settled]
  · simp [SharedCache.chosen, Pc.evicting]
  · simp [SharedCache.chosen, Pc.locks]

/-- What the statements of `clock_find_victim` do: only the hand moves, and the
next point is the victim's lock or that of a block in use. -/
theorem sweepStep_cases {s s' : SharedCache} {w : WriteCall} {q : Pc}
    (h : s.sweepStep w = some (s', q)) : s'.line = s.line ∧ s'.recycling = s.recycling ∧
      s'.st.device = s.st.device ∧ s'.log = s.log ∧
      ((∃ i, q = s'.chosen w i) ∨ ∃ i, q = .acqUse w i) := by
  unfold SharedCache.sweepStep at h
  simp only at h
  split_ifs at h
  · obtain ⟨rfl, rfl⟩ := Prod.mk.inj (Option.some.inj h)
    exact ⟨rfl, rfl, rfl, rfl, .inl ⟨_, rfl⟩⟩
  · obtain ⟨rfl, rfl⟩ := Prod.mk.inj (Option.some.inj h)
    exact ⟨rfl, rfl, rfl, rfl, .inr ⟨_, rfl⟩⟩

theorem findVictimStep_cases {s s' : SharedCache} {w : WriteCall} {q : Pc}
    (h : s.findVictimStep w = some (s', q)) : s'.line = s.line ∧ s'.recycling = s.recycling ∧
      s'.st.device = s.st.device ∧ s'.log = s.log ∧
      ((∃ i, q = s'.chosen w i) ∨ ∃ i, q = .acqUse w i) := by
  unfold SharedCache.findVictimStep at h
  split at h
  · obtain ⟨rfl, rfl⟩ := Prod.mk.inj (Option.some.inj h)
    exact ⟨rfl, rfl, rfl, rfl, .inl ⟨_, rfl⟩⟩
  · exact sweepStep_cases h

/-- What a thread knows depends on lines and evictions only. -/
theorem Knows.congr {p : Pc} {s s' : SharedCache} (h : Knows p s) (hl : s'.line = s.line)
    (hr : s'.recycling = s.recycling) : Knows p s' := by
  obtain ⟨h₁, h₂, h₃, h₄, h₅, h₆⟩ := h
  refine ⟨?_, ?_, ?_, ?_, ?_, ?_⟩ <;> simpa only [hl, hr]

/-- A thread that has passed every block goes on to its victim's lock or to that
of a block in use. -/
theorem Knows.victim {p q : Pc} {s : SharedCache} {w : WriteCall}
    (h : Knows p s) (hp : p.searched = some (w.sec, cacheSize))
    (hq : (∃ i, q = s.chosen w i) ∨ ∃ i, q = .acqUse w i) : Knows q s := by
  rcases hq with ⟨i, rfl⟩ | ⟨i, rfl⟩
  · exact h.chosen hp i
  · refine ⟨fun k n hk => h.passed k n (hp.trans hk), ?_, ?_, ?_, ?_, ?_⟩
    all_goals simp [Pc.target, Pc.decision, Pc.settled, Pc.evicting, Pc.locks]

theorem line_clearUse (s : SharedCache) (i : Fin cacheSize) :
    SharedCache.line { s with st := s.st.update i fun cb => { cb with use := false } } =
      s.line := by
  refine (lines_update s.st i _).trans ?_
  exact Function.update_eq_self i s.st.lines

/-- `evict_and_replace` refills the block under its labels. -/
theorem line_evict (s : SharedCache) (i : Fin cacheSize) (old : BlockSector) (f : Bool) :
    SharedCache.line { s with
        st := s.st.evict i old f
        recycling := Function.update s.recycling i none } =
      Function.update s.line i { s.line i with
        data := (s.st.evict i old f).device.sectors (s.line i).key } := by
  cases f
  · exact lines_update s.st i _
  · exact lines_update (s.st.writeDevice old _) i _

section Steps

variable {sectors : BlockSector → Sector} {s : SharedCache} {w : WriteCall} {i : Fin cacheSize}
  {old : BlockSector} {f : Bool}

/-- **Relabelling a victim.**  Nothing was being recycled; a dirty victim is held
as its old sector still, a clean one as nothing. -/
theorem CacheInv.relabel (h : CacheInv sectors s) (hk : Knows (.relabel w i old f) s) :
    CacheInv sectors { s with
      st := s.st.relabel i w.sec
      recycling := Function.update s.recycling i (some (old, f)) } := by
  set s' : SharedCache := { s with
    st := s.st.relabel i w.sec
    recycling := Function.update s.recycling i (some (old, f)) } with hs'
  have hpass : ∀ j, s.recycling j = none ∧ ¬(s.line j).Holds w.sec :=
    fun j => hk.passed w.sec cacheSize rfl j j.isLt
  have hheld : s.heldLine = s.line := funext fun j => SharedCache.heldLine_of_none (hpass j).1
  have hline : s'.line = Function.update s.line i ⟨w.sec, true, false, (s.line i).data⟩ :=
    lines_update s.st i _
  have hline_ne : ∀ j, j ≠ i → s'.line j = s.line j := fun j hj => by
    rw [hline, Function.update_of_ne hj]
  have hline_i : s'.line i = ⟨w.sec, true, false, (s.line i).data⟩ := by
    rw [hline, Function.update_self]
  have hrec_ne : ∀ j, j ≠ i → s'.recycling j = s.recycling j :=
    fun j hj => Function.update_of_ne hj _ _
  have hheld_i : s'.heldLine i = ⟨old, f, f, (s.line i).data⟩ := by
    have hrec_i : s'.recycling i = some (old, f) := Function.update_self ..
    rw [SharedCache.heldLine_of_some hrec_i, hline_i]
  have hheld' := SharedCache.heldLine_update hline_ne hrec_ne
  rw [hheld_i] at hheld'
  have honly : ∀ j, s'.recycling j ≠ none → j = i := by
    intro j hj
    by_contra hji
    exact hj ((hrec_ne j hji).trans (hpass j).1)
  obtain ⟨hold, hflush⟩ := hk.decided i old f rfl
  have hsettled := hk.settled i f rfl
  refine ⟨?_, fun j j' k hj hj' => ?_, fun j j' hj hj' => (honly j hj).trans (honly j' hj').symm,
    fun j hj => ?_⟩
  · rw [hheld']
    cases f with
    | true =>
      have hm := hflush rfl
      rw [Line.mustFlush, Bool.and_eq_true] at hm
      have hsame : (⟨old, true, true, (s.line i).data⟩ : Line BlockSector Sector) = s.heldLine i := by
        rw [hheld]
        exact Line.ext (hold hm.1).symm hm.1.symm hm.2.symm rfl
      rw [hsame, Function.update_eq_self]
      exact h.coherent
    | false => exact h.coherent.drop (by rw [hheld]; exact hsettled) rfl
  · by_cases hji : j = i <;> by_cases hji' : j' = i
    · exact hji.trans hji'.symm
    · subst hji
      have hkey : w.sec = k := by simpa [hline_i] using hj.2
      rw [hline_ne j' hji', ← hkey] at hj'
      exact absurd hj' (hpass j').2
    · subst hji'
      have hkey : w.sec = k := by simpa [hline_i] using hj'.2
      rw [hline_ne j hji, ← hkey] at hj
      exact absurd hj (hpass j).2
    · rw [hline_ne j hji] at hj
      rw [hline_ne j' hji'] at hj'
      exact h.labels j j' k hj hj'
  · obtain rfl := honly j hj
    rw [hline_i]
    refine ⟨rfl, rfl, fun j' hj' => ?_⟩
    rw [hheld'] at hj'
    by_cases hjj : j' = j
    · subst hjj
      rw [Function.update_self] at hj'
      have hm := hflush hj'.1
      rw [Line.mustFlush, Bool.and_eq_true] at hm
      exact (hpass j').2 ⟨hm.1, (hold hm.1).trans hj'.2⟩
    · rw [Function.update_of_ne hjj, hheld] at hj'
      exact (hpass j').2 hj'

/-- **`evict_and_replace`** recycles the block's held line. -/
theorem CacheInv.evict (h : CacheInv sectors s) (hk : Knows (.evict w i old f) s) :
    CacheInv sectors { s with
      st := s.st.evict i old f
      recycling := Function.update s.recycling i none } := by
  set s' : SharedCache := { s with
    st := s.st.evict i old f
    recycling := Function.update s.recycling i none } with hs'
  obtain ⟨hrec, hkey⟩ := hk.evicting i w.sec old f rfl
  obtain ⟨hvalid, hclean, hnone⟩ := h.recycled i (by simp [hrec])
  have hheldi : s.heldLine i = ⟨old, f, f, (s.line i).data⟩ := SharedCache.heldLine_of_some hrec
  have hdev : s'.st.device.sectors = Coherent.writeBack s.st.device.sectors (s.heldLine i) := by
    rw [hheldi]
    cases f <;> rfl
  have hline : s'.line = Function.update s.line i
      { s.line i with data := s'.st.device.sectors (s.line i).key } := line_evict s i old f
  have hheld' : s'.heldLine = Function.update s.heldLine i (s'.heldLine i) :=
    SharedCache.heldLine_update (fun j hj => by rw [hline, Function.update_of_ne hj])
      (fun j hj => Function.update_of_ne hj _ _)
  rw [SharedCache.heldLine_of_none (s := s') (i := i) (Function.update_self ..), hline,
    Function.update_self, hdev] at hheld'
  have hlabel : ∀ j k, (s'.line j).Holds k ↔ (s.line j).Holds k := by
    rw [hline]
    exact Line.holds_update rfl rfl
  have hnorec : ∀ j, s'.recycling j = none := by
    intro j
    by_cases hj : j = i
    · subst hj
      exact Function.update_self ..
    · by_contra hne
      rw [show s'.recycling j = s.recycling j from Function.update_of_ne hj _ _] at hne
      exact hj (h.single j i hne (by simp [hrec]))
  refine ⟨?_, fun j j' k hj hj' => h.labels j j' k ((hlabel j k).1 hj) ((hlabel j' k).1 hj'),
    fun j _ hj => absurd (hnorec j) hj, fun j hj => absurd (hnorec j) hj⟩
  rw [hheld', hdev]
  exact h.coherent.recycle i hnone ⟨hvalid, rfl⟩ rfl

/-- A statement that changes one block, on which no eviction is under way, and
keeps its sector and validity leaves labels and evictions as they were. -/
theorem CacheInv.of_update (h : CacheInv sectors s) {s' : SharedCache} {l : Line BlockSector Sector}
    (hrec : s.recycling i = none) (hline : s'.line = Function.update s.line i l)
    (hr : s'.recycling = s.recycling) (hv : l.valid = (s.line i).valid)
    (hk : l.key = (s.line i).key)
    (hcoh : Coherent (Function.update s.heldLine i l) s'.st.device.sectors (s'.logged sectors)) :
    CacheInv sectors s' := by
  have hheldi : s.heldLine i = s.line i := SharedCache.heldLine_of_none hrec
  have hline_ne : ∀ j, j ≠ i → s'.line j = s.line j := fun j hj => by
    rw [hline, Function.update_of_ne hj]
  have hheld' := SharedCache.heldLine_update hline_ne fun j _ => congrFun hr j
  rw [SharedCache.heldLine_of_none (s := s') (by rw [hr, hrec]), hline, Function.update_self]
    at hheld'
  have hlabel : ∀ j k, (s'.line j).Holds k ↔ (s.line j).Holds k := by
    rw [hline]
    exact Line.holds_update hv hk
  have hlabel' : ∀ j k, (s'.heldLine j).Holds k ↔ (s.heldLine j).Holds k := by
    rw [hheld']
    exact Line.holds_update (by rw [hheldi, hv]) (by rw [hheldi, hk])
  refine ⟨by rw [hheld']; exact hcoh,
    fun j j' k hj hj' => h.labels j j' k ((hlabel j k).1 hj) ((hlabel j' k).1 hj'),
    by rw [hr]; exact h.single, fun j hj => ?_⟩
  rw [hr] at hj
  have hji : j ≠ i := by
    rintro rfl
    exact hj hrec
  obtain ⟨hv, hd, hno⟩ := h.recycled j hj
  rw [hline_ne j hji]
  exact ⟨hv, hd, fun j' hj' => hno j' ((hlabel' j' _).1 hj')⟩

/-- **The `memcpy` of `cache_write`** writes to the block's held line. -/
theorem CacheInv.store (h : CacheInv sectors s) (hk : Knows (.store w i) s)
    (hsec : (s.line i).key = w.sec) :
    CacheInv sectors { s with
      st := s.st.update i fun cb =>
        { cb with data := copyInto cb.data w.offset w.buff, dirty := true }
      log := s.log ++ [w] } := by
  have hrec : s.recycling i = none := hk.quiet i (by simp [Pc.locks]) rfl
  have hheldi : s.heldLine i = s.line i := SharedCache.heldLine_of_none hrec
  have hholds : (s.heldLine i).Holds w.sec := by
    rw [hheldi]
    exact ⟨hk.target i rfl, hsec⟩
  have hwrite := h.coherent.write hholds (copyInto (s.heldLine i).data w.offset w.buff)
  refine h.of_update hrec (lines_update s.st i _) rfl rfl rfl ?_
  have hlogged : (s.log ++ [w]).foldl writeThrough sectors = Function.update (s.logged sectors)
      w.sec (copyInto (s.heldLine i).data w.offset w.buff) := by
    rw [h.coherent.cached_eq hholds, List.foldl_append]
    rfl
  rw [SharedCache.logged, hlogged]
  rw [hheldi] at hwrite ⊢
  exact hwrite

/-- One turn of `flush_cache`: a block being recycled is clean, so only a block
held as itself is written to the device. -/
theorem CacheInv.flushOne (h : CacheInv sectors s) (i : Fin cacheSize) :
    CacheInv sectors { s with st := SharedCache.flushOne s.st i } := by
  unfold SharedCache.flushOne
  split_ifs with hm
  · have hm' : (s.line i).mustFlush = true := hm
    have hrec : s.recycling i = none := by
      by_contra hne
      rw [Line.mustFlush, (h.recycled i hne).2.1, Bool.and_false] at hm'
      exact absurd hm' (by simp)
    have hheldi : s.heldLine i = s.line i := SharedCache.heldLine_of_none hrec
    have hflush := h.coherent.flush i
    rw [hheldi, Coherent.writeBack, if_pos hm'] at hflush
    exact h.of_update hrec (lines_update (s.st.writeDevice _ _) i _) rfl rfl rfl hflush
  · exact h

/-- What a turn of `flush_cache` leaves of every block: its sector and validity,
and its `dirty` bit only if the turn is another block's. -/
theorem flushOne_line (st : CacheState) (i j : Fin cacheSize) :
    ((SharedCache.flushOne st i).lines j).key = (st.lines j).key ∧
      ((SharedCache.flushOne st i).lines j).valid = (st.lines j).valid ∧
      (((SharedCache.flushOne st i).lines j).mustFlush = true →
        j ≠ i ∧ (st.lines j).mustFlush = true) := by
  unfold SharedCache.flushOne
  split_ifs with hm
  · rw [lines_update, lines_writeDevice]
    by_cases hj : j = i
    · subst hj
      rw [Function.update_self]
      exact ⟨rfl, rfl, fun h => by simp [Line.mustFlush, CachedBlock.line] at h⟩
    · rw [Function.update_of_ne hj]
      exact ⟨rfl, rfl, fun h => ⟨hj, h⟩⟩
  · refine ⟨rfl, rfl, fun h => ⟨?_, h⟩⟩
    rintro rfl
    exact hm h

theorem flushList_line (is : List (Fin cacheSize)) (st : CacheState) (j : Fin cacheSize) :
    ((is.foldl SharedCache.flushOne st).lines j).key = (st.lines j).key ∧
      ((is.foldl SharedCache.flushOne st).lines j).valid = (st.lines j).valid ∧
      (((is.foldl SharedCache.flushOne st).lines j).mustFlush = true →
        j ∉ is ∧ (st.lines j).mustFlush = true) := by
  induction is generalizing st with
  | nil => exact ⟨rfl, rfl, fun h => ⟨List.not_mem_nil, h⟩⟩
  | cons i is ih =>
    obtain ⟨hk, hv, hm⟩ := flushOne_line st i j
    obtain ⟨hk', hv', hm'⟩ := ih (SharedCache.flushOne st i)
    refine ⟨hk'.trans hk, hv'.trans hv, fun h => ?_⟩
    obtain ⟨hnot, h₁⟩ := hm' h
    obtain ⟨hne, h₀⟩ := hm h₁
    exact ⟨by simp [hne, hnot], h₀⟩

/-- **`flush_cache`** keeps the content and leaves no block dirty. -/
theorem CacheInv.flushAll (h : CacheInv sectors s) :
    CacheInv sectors { s with st := SharedCache.flushAll s.st } := by
  unfold SharedCache.flushAll
  generalize List.finRange cacheSize = is
  induction is generalizing s with
  | nil => exact h
  | cons i is ih => exact ih (h.flushOne i)

theorem flushAll_clean (st : CacheState) (i : Fin cacheSize) :
    ((SharedCache.flushAll st).lines i).mustFlush = false := by
  by_contra hm
  unfold SharedCache.flushAll at hm
  exact ((flushList_line _ st i).2.2 (by simpa using hm)).1 (List.mem_finRange i)

/-- `flush_cache` moves no block to another sector. -/
theorem flushAll_label (st : CacheState) (i : Fin cacheSize) :
    ((SharedCache.flushAll st).lines i).key = (st.lines i).key ∧
      ((SharedCache.flushAll st).lines i).valid = (st.lines i).valid := by
  unfold SharedCache.flushAll
  obtain ⟨hk, hv, -⟩ := flushList_line (List.finRange cacheSize) st i
  exact ⟨hk, hv⟩

/-- What is known at the next point after a comparison in `cache_search`. -/
theorem Knows.compare (h : Knows (.compare w i) s) :
    Knows (.relSearch w i ((s.line i).key == w.sec && (s.line i).valid)) s := by
  have hquiet : s.recycling i = none := h.quiet i (by simp [Pc.locks]) rfl
  have hq : ∀ b : Bool, ∀ j, .block j ∈ (Pc.relSearch w i b).locks →
      (Pc.relSearch w i b).evicting = none → s.recycling j = none := by
    intro b j hj _
    obtain rfl : j = i := by simpa [Pc.locks] using hj
    exact hquiet
  cases hfound : (s.line i).key == w.sec && (s.line i).valid with
  | true =>
    rw [Bool.and_eq_true] at hfound
    refine ⟨by simp [Pc.searched], fun j hj => ?_, by simp [Pc.decision], by simp [Pc.settled],
      by simp [Pc.evicting], hq true⟩
    obtain rfl : i = j := by simpa [Pc.target] using hj
    exact hfound.2
  | false =>
    refine ⟨fun k n hk j hj => ?_, by simp [Pc.target], by simp [Pc.decision], by simp [Pc.settled],
      by simp [Pc.evicting], hq false⟩
    obtain ⟨rfl, rfl⟩ : w.sec = k ∧ i.val + 1 = n := by simpa [Pc.searched] using hk
    by_cases hji : j = i
    · subst hji
      refine ⟨hquiet, fun hh => ?_⟩
      rw [hh.1, hh.2] at hfound
      simp at hfound
    · exact h.passed w.sec i.val rfl j (by omega)

/-! ### What the statements that show a block leave alone -/

/-- The guarantee of the step that gives a block its new sector. -/
theorem Guar.relabel (s : SharedCache) : Guar (.relabel w i old f) s { s with
    st := s.st.relabel i w.sec
    recycling := Function.update s.recycling i (some (old, f)) } := by
  have hline := lines_update s.st i
    fun cb => { cb with sector := w.sec, valid := true, use := true, dirty := false }
  refine ⟨fun j hj => ?_, fun j hj => ?_, fun h => ?_, fun h => ?_⟩
  · show (((s.st.update i _).lines j).valid) = true
    rw [hline]
    by_cases hji : j = i
    · subst hji
      rw [Function.update_self]
      rfl
    · rw [Function.update_of_ne hji]
      exact hj
  · have hji : j ≠ i := by simpa [Pc.locks] using hj
    refine ⟨Function.update_of_ne hji _ _, ?_⟩
    show ((s.st.update i _).lines j).key = _
    rw [hline, Function.update_of_ne hji]
    rfl
  · simp [Pc.locks] at h
  · simp [Pc.locks] at h

/-- The guarantee of the step that writes the old sector back and reads the new one. -/
theorem Guar.evict (s : SharedCache) : Guar (.evict w i old f) s { s with
    st := s.st.evict i old f
    recycling := Function.update s.recycling i none } := by
  set s' : SharedCache := { s with
    st := s.st.evict i old f
    recycling := Function.update s.recycling i none } with hs'
  have hline : s'.line = Function.update s.line i
      { s.line i with data := s'.st.device.sectors (s.line i).key } := line_evict s i old f
  have hfields : ∀ j, (s'.line j).key = (s.line j).key ∧ (s'.line j).valid = (s.line j).valid ∧
      (s'.line j).dirty = (s.line j).dirty := by
    intro j
    rw [hline]
    by_cases hji : j = i
    · subst hji
      rw [Function.update_self]
      exact ⟨rfl, rfl, rfl⟩
    · rw [Function.update_of_ne hji]
      exact ⟨rfl, rfl, rfl⟩
  have hother : ∀ j, .block j ∉ (Pc.evict w i old f).locks → j ≠ i := by
    intro j hj
    simpa [Pc.locks] using hj
  refine ⟨fun j hj => (hfields j).2.1.trans hj, fun j hj => ?_, fun _ j => ?_, fun _ j hj => ?_⟩
  · exact ⟨Function.update_of_ne (hother j hj) _ _, (hfields j).1⟩
  · obtain ⟨hk, hv, hd⟩ := hfields j
    refine ⟨hk, hv, fun hrec => ?_, fun hdirty => hd.trans hdirty⟩
    by_cases hji : j = i
    · subst hji
      exact Function.update_self ..
    · exact (Function.update_of_ne hji _ _).trans hrec
  · rw [hline, Function.update_of_ne (hother j hj)]

/-- The guarantee of the step that stores bytes in a block. -/
theorem Guar.store (s : SharedCache) : Guar (.store w i) s { s with
    st := s.st.update i fun cb =>
      { cb with data := copyInto cb.data w.offset w.buff, dirty := true }
    log := s.log ++ [w] } := by
  set s' : SharedCache := { s with
    st := s.st.update i fun cb =>
      { cb with data := copyInto cb.data w.offset w.buff, dirty := true }
    log := s.log ++ [w] } with hs'
  have hline : s'.line = Function.update s.line i
      { s.line i with data := copyInto (s.line i).data w.offset w.buff, dirty := true } :=
    lines_update s.st i _
  have hfields : ∀ j, (s'.line j).key = (s.line j).key ∧ (s'.line j).valid = (s.line j).valid ∧
      ((s.line j).dirty = true → (s'.line j).dirty = true) := by
    intro j
    rw [hline]
    by_cases hji : j = i
    · subst hji
      rw [Function.update_self]
      exact ⟨rfl, rfl, fun _ => rfl⟩
    · rw [Function.update_of_ne hji]
      exact ⟨rfl, rfl, id⟩
  refine ⟨fun j hj => (hfields j).2.1.trans hj, fun j _ => ⟨rfl, (hfields j).1⟩, fun _ j => ?_,
    fun _ j hj => ?_⟩
  · obtain ⟨hk, hv, hd⟩ := hfields j
    exact ⟨hk, hv, id, hd⟩
  · have hji : j ≠ i := by simpa [Pc.locks] using hj
    rw [hline, Function.update_of_ne hji]

theorem Guar.flush (s : SharedCache) :
    Guar .flush s { s with st := SharedCache.flushAll s.st } := by
  have hlabel : ∀ j, _ := flushAll_label s.st
  refine ⟨fun j hj => (hlabel j).2.trans hj, fun j _ => ⟨rfl, (hlabel j).1⟩, fun h => ?_,
    fun h => ?_⟩
  · simp [Pc.locks] at h
  · simp [Pc.locks] at h

/-- What is known after a victim was relabelled. -/
theorem Knows.relabelled : Knows (.relMiss w i old f) { s with
    st := s.st.relabel i w.sec
    recycling := Function.update s.recycling i (some (old, f)) } := by
  refine ⟨?_, ?_, ?_, ?_, fun j new old' f' hd => ?_, ?_⟩
  · simp [Pc.searched]
  · simp [Pc.target]
  · simp [Pc.decision]
  · simp [Pc.settled]
  · obtain ⟨rfl, rfl, rfl, rfl⟩ : i = j ∧ w.sec = new ∧ old = old' ∧ f = f' := by
      simpa [Pc.evicting] using hd
    refine ⟨Function.update_self .., ?_⟩
    show ((s.st.relabel i w.sec).lines i).key = w.sec
    rw [CacheState.relabel, lines_update, Function.update_self]
    rfl
  · simp [Pc.evicting]

/-- What is known after a block was recycled. -/
theorem Knows.evicted (hv : (s.line i).valid = true) : Knows (.relEvict w i) { s with
    st := s.st.evict i old f
    recycling := Function.update s.recycling i none } := by
  refine ⟨?_, fun j hj => ?_, ?_, ?_, ?_, fun j hj _ => ?_⟩
  · simp [Pc.searched]
  · obtain rfl : i = j := by simpa [Pc.target] using hj
    exact (Guar.evict (w := w) s).valid i hv
  · simp [Pc.decision]
  · simp [Pc.settled]
  · simp [Pc.evicting]
  · obtain rfl : j = i := by simpa [Pc.locks] using hj
    exact Function.update_self ..

end Steps

/-- **Every action keeps the invariant, what its thread knows, the invariants of
the locks it does not hold and what other threads know.** -/
theorem cacheProof (sectors : BlockSector → Sector) :
    Proof FreshCode (fun p l => l ∈ p.locks) (CacheInv sectors) BlockFree Knows where
  acquire p s l q hI hK hR hc := by
    obtain ⟨hc, hfresh⟩ := hc
    cases hc with
    | acqCache =>
      refine ⟨fun k n hk j hj => ?_, ?_, ?_, ?_, ?_, ?_⟩
      · obtain ⟨-, rfl⟩ : _ ∧ 0 = n := by simpa [Pc.searched] using hk
        exact absurd hj (Nat.not_lt_zero _)
      all_goals simp [Pc.target, Pc.decision, Pc.settled, Pc.evicting, Pc.locks]
    | @acqSearch _ w i =>
      refine ⟨hK.passed, ?_, ?_, ?_, ?_, fun j hj _ => ?_⟩
      · simp [Pc.target]
      · simp [Pc.decision]
      · simp [Pc.settled]
      · simp [Pc.evicting]
      · obtain rfl : j = i := by simpa [Pc.locks] using hj
        exact hR
    | @acqUse _ w i =>
      refine ⟨hK.passed, ?_, ?_, ?_, ?_, fun j hj _ => ?_⟩
      · simp [Pc.target]
      · simp [Pc.decision]
      · simp [Pc.settled]
      · simp [Pc.evicting]
      · obtain rfl : j = i := by simpa [Pc.locks] using hj
        exact hR
    | @acqVictim _ w i old f =>
      refine ⟨hK.passed, ?_, hK.decided, fun j b hj => ?_, ?_, fun j hj _ => ?_⟩
      · simp [Pc.target]
      · obtain ⟨rfl, rfl⟩ : i = j ∧ f = b := by simpa [Pc.settled] using hj
        exact hfresh w i old f rfl
      · simp [Pc.evicting]
      · obtain rfl : j = i := by simpa [Pc.locks] using hj
        exact hR
    | @acqBlock _ w i =>
      refine ⟨?_, hK.target, ?_, ?_, ?_, fun j hj _ => ?_⟩
      · simp [Pc.searched]
      · simp [Pc.decision]
      · simp [Pc.settled]
      · simp [Pc.evicting]
      · obtain rfl : j = i := by simpa [Pc.locks] using hj
        exact hR
    | acqFlush =>
      constructor <;> simp [Pc.searched, Pc.target, Pc.decision, Pc.settled, Pc.evicting, Pc.locks]
  release p s l q hI hK hc := by
    obtain ⟨hc, -⟩ := hc
    cases hc with
    | @relFound _ w i =>
      refine ⟨hK.quiet i (by simp [Pc.locks]) rfl, hK.mono ?_ ?_ ?_ ?_ ?_ ?_⟩
      all_goals simp [Pc.searched, Pc.target, Pc.decision, Pc.settled, Pc.evicting, Pc.locks]
    | @relNext _ w i j hj =>
      refine ⟨hK.quiet i (by simp [Pc.locks]) rfl, hK.mono ?_ ?_ ?_ ?_ ?_ ?_⟩
      all_goals simp [Pc.searched, Pc.target, Pc.decision, Pc.settled, Pc.evicting, Pc.locks, hj]
    | @relLast _ w i hi =>
      refine ⟨hK.quiet i (by simp [Pc.locks]) rfl, hK.mono ?_ ?_ ?_ ?_ ?_ ?_⟩
      all_goals simp [Pc.searched, Pc.target, Pc.decision, Pc.settled, Pc.evicting, Pc.locks, hi]
    | @relHit _ w i =>
      refine ⟨trivial, hK.mono ?_ ?_ ?_ ?_ ?_ ?_⟩
      all_goals simp [Pc.searched, Pc.target, Pc.decision, Pc.settled, Pc.evicting, Pc.locks]
    | @relUse _ w i =>
      refine ⟨hK.quiet i (by simp [Pc.locks]) rfl, hK.mono ?_ ?_ ?_ ?_ ?_ ?_⟩
      all_goals simp [Pc.searched, Pc.target, Pc.decision, Pc.settled, Pc.evicting, Pc.locks]
    | @relMiss _ w i old f =>
      refine ⟨trivial, hK.mono ?_ ?_ ?_ ?_ ?_ ?_⟩
      all_goals simp [Pc.searched, Pc.target, Pc.decision, Pc.settled, Pc.evicting, Pc.locks]
    | @relEvict _ w i =>
      refine ⟨hK.quiet i (by simp [Pc.locks]) rfl, hK.mono ?_ ?_ ?_ ?_ ?_ ?_⟩
      all_goals simp [Pc.searched, Pc.target, Pc.decision, Pc.settled, Pc.evicting, Pc.locks]
    | @relRetry _ w i =>
      refine ⟨hK.quiet i (by simp [Pc.locks]) rfl, hK.mono ?_ ?_ ?_ ?_ ?_ ?_⟩
      all_goals simp [Pc.searched, Pc.target, Pc.decision, Pc.settled, Pc.evicting, Pc.locks]
    | @relDone _ n i =>
      refine ⟨hK.quiet i (by simp [Pc.locks]) rfl, hK.mono ?_ ?_ ?_ ?_ ?_ ?_⟩
      all_goals simp [Pc.searched, Pc.target, Pc.decision, Pc.settled, Pc.evicting, Pc.locks]
  run p s s' q hI hK hc := by
    obtain ⟨hc, -⟩ := hc
    cases hc with
    | call w _ =>
      refine ⟨hI, hK.mono ?_ ?_ ?_ ?_ ?_ ?_, (Guar.of_eq rfl rfl).frame⟩
      all_goals simp [Pc.searched, Pc.target, Pc.decision, Pc.settled, Pc.evicting, Pc.locks]
    | compare => exact ⟨hI, hK.compare, (Guar.of_eq rfl rfl).frame⟩
    | @findVictim _ _ w _ h =>
      obtain ⟨hl, hr, hd, hlog, hq⟩ := findVictimStep_cases h
      exact ⟨hI.congr hl hr hd hlog, (hK.congr hl hr).victim rfl hq, (Guar.of_eq hl hr).frame⟩
    | @sweep _ _ w _ h =>
      obtain ⟨hl, hr, hd, hlog, hq⟩ := sweepStep_cases h
      exact ⟨hI.congr hl hr hd hlog, (hK.congr hl hr).victim rfl hq, (Guar.of_eq hl hr).frame⟩
    | @clearUse _ w i =>
      have hl := line_clearUse s i
      refine ⟨hI.congr hl rfl rfl rfl, (hK.congr hl rfl).mono ?_ ?_ ?_ ?_ ?_ ?_,
        (Guar.of_eq hl rfl).frame⟩
      all_goals simp [Pc.searched, Pc.target, Pc.decision, Pc.settled, Pc.evicting, Pc.locks]
    | @relabel _ w i old f => exact ⟨hI.relabel hK, .relabelled, (Guar.relabel s).frame⟩
    | @evict _ w i old f =>
      exact ⟨hI.evict hK, .evicted (hI.recycled i (by simp [(hK.evicting i w.sec old f rfl).1])).1,
        (Guar.evict s).frame⟩
    | @store _ w i hsec =>
      refine ⟨hI.store hK hsec, ⟨?_, ?_, ?_, ?_, ?_, ?_⟩, (Guar.store s).frame⟩
      · simp [Pc.searched]
      · simp [Pc.target]
      · simp [Pc.decision]
      · simp [Pc.settled]
      · simp [Pc.evicting]
      · exact fun j hj _ => hK.quiet j (by simpa [Pc.locks] using hj) rfl
    | retry _ =>
      refine ⟨hI, hK.mono ?_ ?_ ?_ ?_ ?_ ?_, (Guar.of_eq rfl rfl).frame⟩
      all_goals simp [Pc.searched, Pc.target, Pc.decision, Pc.settled, Pc.evicting, Pc.locks]
    | @done _ n =>
      have hg : Guar (.done n) s { s with returned := n :: s.returned } := .of_eq rfl rfl
      have hk : Knows (.done n) { s with returned := n :: s.returned } := hK.congr rfl rfl
      refine ⟨hI.congr rfl rfl rfl rfl, hk.mono ?_ ?_ ?_ ?_ ?_ ?_, hg.frame⟩
      all_goals simp [Pc.searched, Pc.target, Pc.decision, Pc.settled, Pc.evicting, Pc.locks]
    | callFlush =>
      refine ⟨hI, hK.mono ?_ ?_ ?_ ?_ ?_ ?_, (Guar.of_eq rfl rfl).frame⟩
      all_goals simp [Pc.searched, Pc.target, Pc.decision, Pc.settled, Pc.evicting, Pc.locks]
    | flush =>
      refine ⟨hI.flushAll, ⟨?_, ?_, ?_, ?_, ?_, ?_⟩, (Guar.flush s).frame⟩
      all_goals simp [Pc.searched, Pc.target, Pc.decision, Pc.settled, Pc.evicting, Pc.locks]

end Filesys
end CS162

/-
# The clock of the buffer cache

`projects1-3/src/filesys/inode.c`, lines 32-51: `clock_find_victim`, when every block is valid.

The hand is to go round the blocks (`CacheState.Chosen`).  The source advances it by
`(clock_hand + 1) & CACHE_SIZE`, where `CACHE_SIZE` is a single bit and no mask: from every
position but the last the hand goes to block `0` (`clockSweep_low`), and from the last one past
the end of the array.  So it never goes round, whatever the bits are.
-/

import CS162.Basis.SecondChance
import CS162.Filesys.BufferCache

namespace CS162
namespace Filesys

open CS162.Basis

/-- The `use` bits of the blocks. -/
def CacheState.useBits (st : CacheState) : Fin cacheSize → Bool :=
  fun i => (st.cache.cachedBlocks i).use

/-- The cache with the hand and the `use` bits set. -/
def CacheState.swept (st : CacheState) (hand : ℕ) (use : Fin cacheSize → Bool) : CacheState :=
  { st with cache := { st.cache with
      cachedBlocks := fun i => { st.cache.cachedBlocks i with use := use i }
      clockHand := hand } }

/-- **Block `victim` was chosen** by the second chance algorithm, which left `st'`. -/
def CacheState.Chosen (st : CacheState) (victim : Fin cacheSize) (st' : CacheState) : Prop :=
  ∃ (hand : Fin cacheSize) (use : Fin cacheSize → Bool), hand.val = st.cache.clockHand ∧
    SecondChance st.useBits hand victim use ∧ st' = st.swept victim use

section Sweep

variable {st : CacheState}

/-- With every block valid, the clock chooses. -/
theorem clockFindVictim_valid (hvalid : ∀ i, (st.cache.cachedBlocks i).valid = true) :
    clockFindVictim.run st = clockSweep st := by
  have hnone : (List.finRange cacheSize).find? (fun i => !(st.cache.cachedBlocks i).valid) = none := by
    refine List.find?_eq_none.2 fun i _ => ?_
    rw [hvalid i]
    exact Bool.false_ne_true
  unfold clockFindVictim
  rw [run_bind_of_run (show (get : CacheProg CacheState).run st = some (st, st) from rfl), hnone]
  rfl

/-- One turn of the loop, the hand going to block `0`. -/
theorem clockSweep_turn (hhand : st.cache.clockHand < 63) : clockSweep st =
    if st.useBits 0 = false then some (0, st.swept 0 st.useBits)
    else clockSweep (st.swept 0 (Function.update st.useBits 0 false)) := by
  have hzero : ∀ h < 63, (h + 1) &&& cacheSize = 0 := by decide
  have hnext := hzero _ hhand
  rw [clockSweep]
  simp only [hnext]
  rw [dif_pos (by decide)]
  by_cases huse : st.useBits 0 = false
  · rw [if_pos huse]
    exact dif_pos huse
  · rw [if_neg huse]
    have hblocks : ∀ i, Function.update st.cache.cachedBlocks 0
        { st.cache.cachedBlocks 0 with use := false } i =
          { st.cache.cachedBlocks i with use := Function.update st.useBits 0 false i } := by
      intro i
      by_cases hi : i = 0
      · rw [hi, Function.update_self, Function.update_self]
      · rw [Function.update_of_ne hi, Function.update_of_ne hi]
        rfl
    refine (dif_neg huse).trans (congrArg clockSweep ?_)
    exact congrArg (fun blocks => { st with cache := ⟨blocks, 0, st.cache.locked⟩ }) (funext hblocks)

@[simp] theorem CacheState.useBits_swept (hand : ℕ) (use : Fin cacheSize → Bool) :
    (st.swept hand use).useBits = use := rfl

/-- **From every position but the last** the loop chooses block `0` and changes no other bit. -/
theorem clockSweep_low (hhand : st.cache.clockHand < 63) :
    clockSweep st = some (0, st.swept 0 (Function.update st.useBits 0 false)) := by
  rw [clockSweep_turn hhand]
  by_cases huse : st.useBits 0 = false
  · have hsame : Function.update st.useBits 0 false = st.useBits :=
      Function.update_eq_iff.2 ⟨huse.symm, fun _ _ => rfl⟩
    rw [if_pos huse, hsame]
  · have hhand' : (st.swept 0 (Function.update st.useBits 0 false)).cache.clockHand < 63 :=
      Nat.succ_pos 62
    rw [if_neg huse, clockSweep_turn hhand', CacheState.useBits_swept, if_pos (Function.update_self ..)]
    rfl

/-- **From the last position** it leaves the array. -/
theorem clockSweep_last (hhand : st.cache.clockHand = 63) : clockSweep st = none := by
  rw [clockSweep]
  simp only [hhand]
  rw [dif_neg (by decide)]

end Sweep

/-- What the loop leaves is not the second chance algorithm's choice. -/
theorem not_chosen_of_low {st : CacheState} (hhand : st.cache.clockHand < 63) :
    ¬st.Chosen 0 (st.swept 0 (Function.update st.useBits 0 false)) := by
  rintro ⟨hand, use, hval, hchoice, hstate⟩
  have hne : hand + 1 ≠ 0 := fun heq => by
    have hsum : (hand.val + 1) % 64 = 0 := congrArg Fin.val heq
    omega
  have huse : use = Function.update st.useBits 0 false :=
    funext fun i => (congrArg (fun s : CacheState => s.useBits i) hstate).symm
  obtain heq | ⟨hset, hclear⟩ := hchoice.next
  · exact hne heq.symm
  · -- the slot after the hand keeps its bit
    rw [huse, Function.update_of_ne hne, hset] at hclear
    cases hclear

/-- What `clock_find_victim` returns, and the cache it leaves, are never that choice. -/
theorem not_returns_chosen {st : CacheState} (hvalid : ∀ i, (st.cache.cachedBlocks i).valid = true)
    (hhand : st.cache.clockHand < cacheSize) : ¬Returns clockFindVictim st st.Chosen := by
  rintro ⟨i, st', hrun, hchosen⟩
  rw [clockFindVictim_valid hvalid] at hrun
  rcases Nat.lt_or_ge st.cache.clockHand 63 with hlow | hlast
  · rw [clockSweep_low hlow] at hrun
    obtain ⟨rfl, rfl⟩ := Prod.mk.inj (Option.some.inj hrun)
    exact not_chosen_of_low hlow hchosen
  · rw [clockSweep_last (Nat.le_antisymm (Nat.le_of_lt_succ hhand) hlast)] at hrun
    cases hrun

/-- **The clock never turns.**  With every block valid, from every position of the hand and
for all `use` bits, the second chance algorithm has a choice, and `clock_find_victim` does not
return it with the cache that the algorithm leaves. -/
theorem clockFindVictim_never {st : CacheState}
    (hvalid : ∀ i, (st.cache.cachedBlocks i).valid = true) (hhand : st.cache.clockHand < cacheSize) :
    (∃ victim st', st.Chosen victim st') ∧ ¬Returns clockFindVictim st st.Chosen := by
  constructor
  · obtain ⟨victim, use, hchoice⟩ := exists_secondChance st.useBits ⟨_, hhand⟩
    exact ⟨victim, _, _, use, rfl, hchoice, rfl⟩
  · exact not_returns_chosen hvalid hhand

/-- A cache of valid blocks that were not used of late, the hand at `hand`. -/
def idleCache (hand : ℕ) : CacheState where
  device := ⟨64, fun _ => Sector.zero⟩
  cache := ⟨fun i => ⟨UInt32.ofNat i, false, false, true, Sector.zero⟩, hand, false⟩

/-- The hand at the last block, and no `use` bit set. -/
theorem clockFindVictim_never_last :
    (∃ victim st', (idleCache 63).Chosen victim st') ∧
      ¬Returns clockFindVictim (idleCache 63) (idleCache 63).Chosen :=
  clockFindVictim_never (fun _ => rfl) (by decide)

/-- With the hand at block `0` and no bit set, block `1` is to be chosen; block `0` is. -/
theorem clockFindVictim_wrong :
    (idleCache 0).Chosen 1 ((idleCache 0).swept 1 (idleCache 0).useBits) ∧
      Returns clockFindVictim (idleCache 0) (fun i _ => i = 0) ∧
      ¬Returns clockFindVictim (idleCache 0) (idleCache 0).Chosen := by
  refine ⟨⟨0, _, rfl, .found rfl, rfl⟩, ?_, not_returns_chosen (fun _ => rfl) (by decide)⟩
  have hrun : clockFindVictim.run (idleCache 0) = clockSweep (idleCache 0) :=
    clockFindVictim_valid fun _ => rfl
  exact ⟨0, _, hrun.trans (clockSweep_low (by decide)), rfl⟩

end Filesys
end CS162

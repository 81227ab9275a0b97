/-
# Locks

`projects1-3/src/threads/synch.c`, lines 194-214 and 239-252.

What `holder`, `donated_to` and `donated_locks` say, in every state: a lock's
semaphore is 1 only while nobody holds the lock; a thread that is in
`lock_acquire`, and no other, has the lock in its `donated_to`; and a thread has
the locks it holds in its `donated_locks`, once each (`LockInv.step`).  Between
the end of its `sema_down` and the assignments that follow, a thread is not
interrupted, so nobody holds the lock it takes.
-/

import CS162.Threads.Regions

namespace CS162
namespace Threads

open CS162.Basis CS162.Lib

/-- The thread waits for the lock, or takes it next. -/
def AtLock (code : List Region) (l : LockId) : Prop :=
  code.head? = some (.down (.lock l)) ∨ code.head? = some (.take l)

/-- The lock that a thread is at after a region. -/
def Region.lockNext : Region → Option LockId
  | .acquire l | .down (.lock l) => some l
  | _ => none

/-- Whether the thread is at the lock is said by the region that ran last. -/
theorem atLock_pushes {r : Region} {rest pushed : List Region} (h : Formed (r :: rest))
    (hpushed : r.Pushes pushed) (l : LockId) :
    AtLock (pushed ++ rest) l ↔ r.lockNext = some l := by
  cases r with
  | create p =>
    cases (h : rest = [])
    rcases hpushed with rfl | ⟨t, rfl⟩ <;> simp [AtLock, Region.lockNext]
  | down s =>
    cases s with
    | lock l' =>
      obtain ⟨rest', rfl, -⟩ := h
      rcases hpushed with rfl | rfl <;> simp [AtLock, Region.lockNext]
    | other n =>
      cases (h : rest = [])
      rcases hpushed with rfl | rfl <;> simp [AtLock, Region.lockNext]
  | sleep ticks =>
    cases (h : rest = [])
    rcases hpushed with rfl | rfl <;> simp [AtLock, Region.lockNext]
  | acquire l' =>
    cases (hpushed : pushed = _)
    simp [AtLock, Region.lockNext]
  | take l' =>
    cases (hpushed : pushed = _)
    rcases h with rfl | ⟨t, rfl⟩ <;> simp [AtLock, Region.lockNext]
  | release l' =>
    cases (hpushed : pushed = _)
    rcases h with rfl | ⟨t, rfl⟩ <;> simp [AtLock, Region.lockNext]
  | tryDown s | up s =>
    cases (hpushed : pushed = _)
    cases s with
    | lock l' => cases h
    | other n =>
      cases (h : rest = [])
      simp [AtLock, Region.lockNext]
  | start _ | yieldTo _ | yield | setPriority _ | setEffective _ | updatePriority | sleepInsert
  | slept | block | resumed | unblock _ =>
    cases (hpushed : pushed = _)
    cases (h : rest = _)
    simp [AtLock, Region.lockNext]

/-- A thread comes to take a lock only from the end of its `sema_down`. -/
theorem take_pushes {r : Region} {rest pushed : List Region} (h : Formed (r :: rest))
    (hpushed : r.Pushes pushed) {l : LockId} (hhead : (pushed ++ rest).head? = some (.take l)) :
    r = .down (.lock l) := by
  have hnext := (atLock_pushes h hpushed l).1 (.inr hhead)
  cases r with
  | acquire l' =>
    cases (hpushed : pushed = _)
    cases hhead
  | down s =>
    cases s with
    | lock l' => rw [Option.some.inj hnext]
    | other n => cases hnext
  | create _ | start _ | yieldTo _ | yield | setPriority _ | setEffective _ | updatePriority
  | tryDown _ | up _ | take _ | release _ | sleep _ | sleepInsert | slept | block | resumed
  | unblock _ => cases hnext

/-- What the fields of locks and threads say about each other. -/
structure LockInv (σ : Machine) : Prop where
  waiting : ∀ t l, (σ.threads t).donatedTo = some l ↔ AtLock (σ.code t) l
  owned : ∀ t l, l ∈ (σ.threads t).donatedLocks ↔ σ.holder l = some t
  nodup : ∀ t, (σ.threads t).donatedLocks.Nodup
  value : ∀ l, (σ.semas (.lock l)).value = 0 ∨
    ((σ.semas (.lock l)).value = 1 ∧ σ.holder l = none)
  taking : ∀ t l, (σ.code t).head? = some (.take l) →
    t = σ.current ∧ σ.holder l = none ∧ (σ.semas (.lock l)).value = 0
  born : ∀ l t, σ.holder l = some t → t ∈ σ.allList
  listed : ∀ t, t ∈ σ.allList ↔ t < σ.nextThread

/-- Machines that do not differ in locks, their values and who waits. -/
structure SameLocks (σ σ' : Machine) : Prop where
  donatedTo : ∀ t, (σ'.threads t).donatedTo = (σ.threads t).donatedTo
  donatedLocks : ∀ t, (σ'.threads t).donatedLocks = (σ.threads t).donatedLocks
  holder : ∀ l, σ'.holder l = σ.holder l
  value : ∀ l, (σ'.semas (.lock l)).value = (σ.semas (.lock l)).value
  allList : σ'.allList = σ.allList
  nextThread : σ'.nextThread = σ.nextThread

theorem SamePriorities.locks {σ σ' : Machine} (h : SamePriorities σ σ') : SameLocks σ σ' :=
  ⟨h.donatedTo, h.donatedLocks, h.holder, fun l => h.value (.lock l), h.allList, h.nextThread⟩

theorem SameLocks.trans {σ σ' σ'' : Machine} (h : SameLocks σ σ') (h' : SameLocks σ' σ'') :
    SameLocks σ σ'' :=
  ⟨fun t => (h'.donatedTo t).trans (h.donatedTo t),
    fun t => (h'.donatedLocks t).trans (h.donatedLocks t),
    fun l => (h'.holder l).trans (h.holder l), fun l => (h'.value l).trans (h.value l),
    h'.allList.trans h.allList, h'.nextThread.trans h.nextThread⟩

theorem sameLocks_setThread {σ : Machine} {t : ThreadId} {f : Thread → Thread}
    (hf : ∀ th, (f th).donatedTo = th.donatedTo ∧ (f th).donatedLocks = th.donatedLocks) :
    SameLocks σ (σ.setThread t f) := by
  have hthread := fun u => threads_setThread_cases σ t u f
  refine ⟨fun u => ?_, fun u => ?_, fun _ => rfl, fun _ => rfl, rfl, rfl⟩
  · rcases hthread u with heq | heq <;> rw [heq]
    exact (hf _).1
  · rcases hthread u with heq | heq <;> rw [heq]
    exact (hf _).2

theorem sameLocks_raise (σ : Machine) (t : ThreadId) (p : ℤ) : SameLocks σ (σ.raise t p) := by
  have h : SameLocks σ (σ.setEff t p) := sameLocks_setThread fun _ => ⟨rfl, rfl⟩
  unfold Machine.raise
  split
  · exact h.trans ⟨fun _ => rfl, fun _ => rfl, fun _ => rfl, fun _ => rfl, rfl, rfl⟩
  · exact h

/-- The loop of `recurse_donate` only changes effective priorities. -/
theorem donateLoop_locks {fuel : ℕ} {t : ThreadId} {σ σ' : Machine}
    (hrun : (donateLoop fuel t).run σ = some ((), σ')) : SameLocks σ σ' := by
  obtain ⟨-, hlocks, -⟩ := donateLoop_rule (p := σ.eff t) (I := fun _ τ => SameLocks σ τ)
    (fun τ _ next hI _ _ _ _ => hI.trans (sameLocks_raise τ next _)) hrun rfl
    ⟨fun _ => rfl, fun _ => rfl, fun _ => rfl, fun _ => rfl, rfl, rfl⟩
  exact hlocks

/-- Steps that leave the locks alone. -/
theorem LockInv.same {σ σ' : Machine} (h : LockInv σ) (hsame : SameLocks σ σ')
    (hat : ∀ t l, AtLock (σ'.code t) l ↔ AtLock (σ.code t) l)
    (htaking : ∀ t l, (σ'.code t).head? ≠ some (.take l)) : LockInv σ' := by
  refine ⟨fun t l => ?_, fun t l => ?_, fun t => ?_, fun l => ?_,
    fun t l hhead => absurd hhead (htaking t l), fun l t hl => ?_, fun t => ?_⟩
  · rw [hsame.donatedTo, hat]
    exact h.waiting t l
  · rw [hsame.donatedLocks, hsame.holder]
    exact h.owned t l
  · rw [hsame.donatedLocks]
    exact h.nodup t
  · rw [hsame.value, hsame.holder]
    exact h.value l
  · rw [hsame.allList]
    exact h.born l t (hsame.holder l ▸ hl)
  · rw [hsame.allList, hsame.nextThread]
    exact h.listed t

theorem LockInv.value_of_held {σ : Machine} (h : LockInv σ) {l : LockId}
    (hheld : σ.holder l ≠ none) : (σ.semas (.lock l)).value = 0 :=
  (h.value l).resolve_right fun hfree => hheld hfree.2

theorem sameLocks_setCode (σ : Machine) (t : ThreadId) (code : List Region) :
    SameLocks σ (σ.setCode t code) :=
  ⟨fun _ => rfl, fun _ => rfl, fun _ => rfl, fun _ => rfl, rfl, rfl⟩

/-- A semaphore that is no lock's. -/
theorem sameLocks_setSema (σ : Machine) (n : ℕ) (sema : Semaphore) :
    SameLocks σ (σ.setSema (.other n) sema) :=
  ⟨fun _ => rfl, fun _ => rfl, fun _ => rfl, fun l => by simp [Machine.setSema], rfl, rfl⟩

/-- `thread_create` makes a thread that holds and waits for nothing. -/
theorem LockInv.create {σ σ' : Machine} (h : LockInv σ) {p : ℤ}
    (hsame : SameLocks (σ.create p) σ') (hnil : σ.code σ.nextThread = [])
    (hat : ∀ t l, AtLock (σ'.code t) l ↔ AtLock (σ.code t) l)
    (htaking : ∀ t l, (σ'.code t).head? ≠ some (.take l)) : LockInv σ' := by
  have hself : (σ.create p).threads σ.nextThread = initThread p := by
    simp [Machine.create, Machine.push, Machine.setCode]
  have hother : ∀ t, t ≠ σ.nextThread → (σ.create p).threads t = σ.threads t := fun t ht => by
    simp [Machine.create, Machine.push, Machine.setCode, ht]
  have hunheld : ∀ l, σ.holder l ≠ some σ.nextThread := fun l hl =>
    lt_irrefl _ ((h.listed _).1 (h.born l _ hl))
  have hholder : ∀ l, σ'.holder l = σ.holder l := hsame.holder
  have hall : σ'.allList = σ.allList ++ [σ.nextThread] := hsame.allList
  refine ⟨fun t l => ?_, fun t l => ?_, fun t => ?_, fun l => ?_,
    fun t l hhead => absurd hhead (htaking t l), fun l t hl => ?_, fun t => ?_⟩
  · rw [hsame.donatedTo, hat]
    rcases Classical.em (t = σ.nextThread) with rfl | ht
    · rw [hself, hnil]
      simp [initThread, AtLock]
    · rw [hother t ht]
      exact h.waiting t l
  · rw [hsame.donatedLocks, hholder]
    rcases Classical.em (t = σ.nextThread) with rfl | ht
    · rw [hself]
      simp [initThread, hunheld l]
    · rw [hother t ht]
      exact h.owned t l
  · rw [hsame.donatedLocks]
    rcases Classical.em (t = σ.nextThread) with rfl | ht
    · rw [hself]
      exact List.nodup_nil
    · rw [hother t ht]
      exact h.nodup t
  · rw [hsame.value, hholder]
    exact h.value l
  · rw [hall]
    exact List.mem_append_left _ (h.born l t (hholder l ▸ hl))
  · rw [hall, show σ'.nextThread = σ.nextThread + 1 from hsame.nextThread, List.mem_append,
      List.mem_singleton, h.listed]
    exact Nat.lt_succ_iff_lt_or_eq.symm

/-- The running thread is in `lock_acquire` from now on. -/
theorem LockInv.donateTo {σ σ' : Machine} (h : LockInv σ) {l : LockId}
    (hsame : SameLocks (σ.donateTo l) σ')
    (hself : ∀ l', AtLock (σ'.code σ.current) l' ↔ l = l')
    (hat : ∀ t l', t ≠ σ.current → (AtLock (σ'.code t) l' ↔ AtLock (σ.code t) l'))
    (htaking : ∀ t l, (σ'.code t).head? ≠ some (.take l)) : LockInv σ' := by
  have hlocks : ∀ t, ((σ.donateTo l).threads t).donatedLocks = (σ.threads t).donatedLocks :=
    fun t => by
      rcases Classical.em (t = σ.current) with rfl | ht
      · simp [Machine.donateTo, Machine.setThread]
      · simp [Machine.donateTo, Machine.setThread, ht]
  refine ⟨fun t l' => ?_, fun t l' => ?_, fun t => ?_, fun l' => ?_,
    fun t l hhead => absurd hhead (htaking t l), fun l' t hl => ?_, fun t => ?_⟩
  · rw [hsame.donatedTo]
    rcases Classical.em (t = σ.current) with rfl | ht
    · rw [hself]
      simp [Machine.donateTo, Machine.setThread]
    · rw [hat t l' ht, ← h.waiting]
      simp [Machine.donateTo, Machine.setThread, ht]
  · rw [hsame.donatedLocks, hsame.holder, hlocks]
    exact h.owned t l'
  · rw [hsame.donatedLocks, hlocks]
    exact h.nodup t
  · rw [hsame.value, hsame.holder]
    exact h.value l'
  · rw [hsame.allList]
    exact h.born l' t (hsame.holder l' ▸ hl)
  · rw [hsame.allList, hsame.nextThread]
    exact h.listed t

/-- The running thread's `sema_down` on a lock ends. -/
theorem LockInv.downed {σ σ' : Machine} (h : LockInv σ) {l : LockId} {sema : Semaphore}
    (hsame : SameLocks (σ.setSema (.lock l) sema) σ')
    (hpos : (σ.semas (.lock l)).value ≠ 0) (hvalue : sema.value = (σ.semas (.lock l)).value - 1)
    (hat : ∀ t l, AtLock (σ'.code t) l ↔ AtLock (σ.code t) l)
    (htaking : ∀ t l', (σ'.code t).head? = some (.take l') → t = σ'.current ∧ l' = l) :
    LockInv σ' := by
  obtain ⟨hone, hfree⟩ := (h.value l).resolve_left hpos
  have hvalues : ∀ l', (σ'.semas (.lock l')).value =
      if l' = l then 0 else (σ.semas (.lock l')).value := fun l' => by
    rw [hsame.value]
    rcases Classical.em (l' = l) with rfl | hl
    · rw [if_pos rfl]
      simp only [Machine.setSema, Function.update_self]
      rw [hvalue, hone]
      rfl
    · simp [Machine.setSema, hl]
  have hholder : ∀ l', σ'.holder l' = σ.holder l' := hsame.holder
  refine ⟨fun t l' => ?_, fun t l' => ?_, fun t => ?_, fun l' => ?_, fun t l' hhead => ?_,
    fun l' t hl => ?_, fun t => ?_⟩
  · rw [hsame.donatedTo, hat]
    exact h.waiting t l'
  · rw [hsame.donatedLocks, hholder]
    exact h.owned t l'
  · rw [hsame.donatedLocks]
    exact h.nodup t
  · rw [hvalues, hholder]
    split
    · exact .inl rfl
    · exact h.value l'
  · obtain ⟨ht, rfl⟩ := htaking t l' hhead
    rw [hvalues, hholder, if_pos rfl]
    exact ⟨ht, hfree, rfl⟩
  · rw [hsame.allList]
    exact h.born l' t (hholder l' ▸ hl)
  · rw [hsame.allList, hsame.nextThread]
    exact h.listed t

/-- The running thread gets a lock that nobody holds. -/
theorem LockInv.take {σ σ' : Machine} (h : LockInv σ) {l : LockId}
    (hsame : SameLocks (σ.take l) σ') (hfree : σ.holder l = none)
    (hzero : (σ.semas (.lock l)).value = 0) (hborn : σ.current < σ.nextThread)
    (hself : ∀ l', ¬AtLock (σ'.code σ.current) l')
    (hat : ∀ t l', t ≠ σ.current → (AtLock (σ'.code t) l' ↔ AtLock (σ.code t) l'))
    (htaking : ∀ t l, (σ'.code t).head? ≠ some (.take l)) : LockInv σ' := by
  have hholder : ∀ l', σ'.holder l' = if l' = l then some σ.current else σ.holder l' :=
    fun l' => by
      rw [hsame.holder]
      rcases Classical.em (l' = l) with rfl | hl
      · simp [Machine.take]
      · simp [Machine.take, Machine.setThread, hl]
  have hcurrent : (σ'.threads σ.current).donatedTo = none ∧
      (σ'.threads σ.current).donatedLocks = (σ.threads σ.current).donatedLocks ++ [l] := by
    rw [hsame.donatedTo, hsame.donatedLocks]
    simp [Machine.take, Machine.setThread]
  have hother : ∀ t, t ≠ σ.current → (σ'.threads t).donatedTo = (σ.threads t).donatedTo ∧
      (σ'.threads t).donatedLocks = (σ.threads t).donatedLocks := fun t ht => by
    rw [hsame.donatedTo, hsame.donatedLocks]
    simp [Machine.take, Machine.setThread, ht]
  have hnot : ∀ t, l ∉ (σ.threads t).donatedLocks := fun t hl => by
    rw [h.owned, hfree] at hl
    cases hl
  refine ⟨fun t l' => ?_, fun t l' => ?_, fun t => ?_, fun l' => ?_,
    fun t l hhead => absurd hhead (htaking t l), fun l' t hl => ?_, fun t => ?_⟩
  · rcases Classical.em (t = σ.current) with rfl | ht
    · rw [hcurrent.1]
      simp [hself l']
    · rw [(hother t ht).1, hat t l' ht]
      exact h.waiting t l'
  · rw [hholder]
    rcases Classical.em (t = σ.current) with rfl | ht
    · rw [hcurrent.2, List.mem_append, List.mem_singleton, h.owned]
      split
      · rename_i hl
        simp [hl]
      · rename_i hl
        simp [hl]
    · rw [(hother t ht).2, h.owned]
      split
      · rename_i hl
        rw [hl, hfree]
        simp [Ne.symm ht]
      · rfl
  · rcases Classical.em (t = σ.current) with rfl | ht
    · rw [hcurrent.2]
      exact (List.perm_append_singleton l _).symm.nodup
        (List.nodup_cons.2 ⟨hnot σ.current, h.nodup σ.current⟩)
    · rw [(hother t ht).2]
      exact h.nodup t
  · rw [hsame.value, hholder]
    split
    · rename_i hl
      exact .inl (hl ▸ hzero)
    · exact h.value l'
  · rw [hsame.allList]
    show t ∈ σ.allList
    rw [hholder] at hl
    split at hl
    · exact (h.listed t).2 (Option.some.inj hl ▸ hborn)
    · exact h.born l' t hl
  · rw [hsame.allList, hsame.nextThread]
    exact h.listed t

/-- `update_priority` in `lock_release`. -/
theorem sameLocks_release (σ : Machine) (l : LockId) (sema : Semaphore) :
    SameLocks ((σ.drop l).setSema (.lock l) sema) ((σ.release l).setSema (.lock l) sema) := by
  have h : SameLocks (σ.drop l) (σ.release l) := sameLocks_setThread (f := fun th =>
    { th with effectivePriority := (σ.drop l).maxPriority σ.current }) fun _ => ⟨rfl, rfl⟩
  exact ⟨h.donatedTo, h.donatedLocks, h.holder, fun _ => rfl, rfl, rfl⟩

/-- The running thread gives a lock back. -/
theorem LockInv.release {σ σ' : Machine} (h : LockInv σ) {l : LockId} {sema : Semaphore}
    (hsame : SameLocks ((σ.drop l).setSema (.lock l) sema) σ')
    (hheld : σ.holder l = some σ.current) (hvalue : sema.value = (σ.semas (.lock l)).value + 1)
    (hat : ∀ t l, AtLock (σ'.code t) l ↔ AtLock (σ.code t) l)
    (htaking : ∀ t l, (σ'.code t).head? ≠ some (.take l)) : LockInv σ' := by
  have hholder : ∀ l', σ'.holder l' = if l' = l then none else σ.holder l' := fun l' => by
    rw [hsame.holder]
    rcases Classical.em (l' = l) with rfl | hl
    · simp [Machine.drop, Machine.setThread, Machine.setSema]
    · simp [Machine.drop, Machine.setThread, Machine.setSema, hl]
  have hvalues : ∀ l', (σ'.semas (.lock l')).value =
      if l' = l then 1 else (σ.semas (.lock l')).value := fun l' => by
    rw [hsame.value]
    rcases Classical.em (l' = l) with rfl | hl
    · rw [if_pos rfl]
      simp only [Machine.setSema, Function.update_self]
      rw [hvalue, h.value_of_held (by simp [hheld])]
      rfl
    · simp [Machine.drop, Machine.setThread, Machine.setSema, hl]
  have hto : ∀ t, (σ'.threads t).donatedTo = (σ.threads t).donatedTo := fun t => by
    rw [hsame.donatedTo]
    rcases Classical.em (t = σ.current) with rfl | ht
    · simp [Machine.drop, Machine.setThread, Machine.setSema]
    · simp [Machine.drop, Machine.setThread, Machine.setSema, ht]
  have hlocks : ∀ t, (σ'.threads t).donatedLocks = if t = σ.current
      then (σ.threads t).donatedLocks.erase l else (σ.threads t).donatedLocks := fun t => by
    rw [hsame.donatedLocks]
    rcases Classical.em (t = σ.current) with rfl | ht
    · simp [Machine.drop, Machine.setThread, Machine.setSema]
    · simp [Machine.drop, Machine.setThread, Machine.setSema, ht]
  refine ⟨fun t l' => ?_, fun t l' => ?_, fun t => ?_, fun l' => ?_,
    fun t l hhead => absurd hhead (htaking t l), fun l' t hl => ?_, fun t => ?_⟩
  · rw [hto, hat]
    exact h.waiting t l'
  · rw [hlocks, hholder]
    have howned := h.owned t l'
    split
    · rename_i ht
      rw [(h.nodup t).mem_erase_iff, howned]
      split
      · rename_i hl
        simp [hl]
      · rename_i hl
        simp [hl]
    · rename_i ht
      rw [howned]
      split
      · rename_i hl
        rw [hl, hheld]
        simp [Ne.symm ht]
      · rfl
  · rw [hlocks]
    split
    · exact (h.nodup t).erase l
    · exact h.nodup t
  · rw [hvalues, hholder]
    split
    · exact .inr ⟨rfl, rfl⟩
    · exact h.value l'
  · rw [hsame.allList]
    show t ∈ σ.allList
    rw [hholder] at hl
    split at hl
    · cases hl
    · exact h.born l' t hl
  · rw [hsame.allList, hsame.nextThread]
    exact h.listed t

/-- **Every region keeps the fields of locks and threads in agreement.** -/
theorem LockInv.execute {σ σ' : Machine} (h : LockInv σ) (hplaced : Placed σ)
    (hformed : ∀ t, Formed (σ.code t)) {r : Region} {rest : List Region}
    (hcode : σ.code σ.current = r :: rest)
    (hrun : (Threads.execute r).run (σ.setCode σ.current rest) = some ((), σ')) : LockInv σ' := by
  have hpop := hplaced.pop hcode
  have hcodes : ∀ t, t ≠ σ.current → (σ.setCode σ.current rest).code t = σ.code t := fun t ht => by
    simp [Machine.setCode, ht]
  have hrest : (σ.setCode σ.current rest).code σ.current = rest := by simp [Machine.setCode]
  have hform : Formed (r :: rest) := hcode ▸ hformed σ.current
  have hrep := execute_priorities hpop hrun
  obtain ⟨pushed, hpushed, hself, hother⟩ := execute_code hpop hrun
  rw [show (σ.setCode σ.current rest).current = σ.current from rfl, hrest] at hself
  replace hother : ∀ t, t ≠ σ.current → σ'.code t = σ.code t := fun t ht =>
    (hother t ht).trans (hcodes t ht)
  have hnext : ∀ l, AtLock (σ'.code σ.current) l ↔ r.lockNext = some l := fun l => by
    rw [hself]
    exact atLock_pushes hform hpushed l
  have hhead : ∀ l, AtLock (σ.code σ.current) l ↔ r = .down (.lock l) ∨ r = .take l := fun l => by
    rw [hcode]
    simp [AtLock]
  have hat : ∀ t l, t ≠ σ.current → (AtLock (σ'.code t) l ↔ AtLock (σ.code t) l) :=
    fun t l ht => by rw [hother t ht]
  have htake : ∀ t l, (σ'.code t).head? = some (.take l) →
      t = σ.current ∧ r = .down (.lock l) := fun t l ht => by
    rcases Classical.em (t = σ.current) with rfl | hne
    · exact ⟨rfl, take_pushes hform hpushed (hself ▸ ht)⟩
    · exact absurd (h.taking t l (hother t hne ▸ ht)).1 hne
  have hpopped := sameLocks_setCode σ σ.current rest
  -- regions that are not at a lock, neither before nor after
  have hplain : (∀ l, r ≠ .down (.lock l)) → (∀ l, r ≠ .take l) → r.lockNext = none →
      (∀ t l, AtLock (σ'.code t) l ↔ AtLock (σ.code t) l) ∧
        ∀ t l, (σ'.code t).head? ≠ some (.take l) := fun hdown htakes hnone => by
    refine ⟨fun t l => ?_, fun t l ht => hdown l (htake t l ht).2⟩
    rcases Classical.em (t = σ.current) with rfl | ht
    · rw [hnext, hhead, hnone]
      simp [hdown l, htakes l]
    · exact hat t l ht
  have hsame : (∀ l, r ≠ .down (.lock l)) → (∀ l, r ≠ .take l) → r.lockNext = none →
      SameLocks (σ.setCode σ.current rest) σ' → LockInv σ' := fun hdown htakes hnone hlocks =>
    h.same (hpopped.trans hlocks) (hplain hdown htakes hnone).1 (hplain hdown htakes hnone).2
  cases r with
  | create p =>
    rcases hrep with hrep | ⟨-, -, hrep⟩
    · exact hsame (by simp) (by simp) rfl hrep.locks
    · obtain ⟨hat', htaking⟩ := hplain (by simp) (by simp) rfl
      have hlocks : SameLocks (σ.create p) ((σ.setCode σ.current rest).create p) :=
        ⟨fun _ => rfl, fun _ => rfl, fun _ => rfl, fun _ => rfl, rfl, rfl⟩
      exact h.create (hlocks.trans hrep.locks)
        (hplaced.coded.unborn σ.nextThread (.inl le_rfl)).2.1 hat' htaking
  | start _ | yieldTo _ | yield | sleep _ | sleepInsert | slept | block | resumed | unblock _ =>
    exact hsame (by simp) (by simp) rfl (SamePriorities.locks hrep)
  | setPriority p =>
    have hset : SameLocks (σ.setCode σ.current rest) _ := sameLocks_setThread (t := σ.current)
      (f := fun th => { th with priority := p }) fun _ => ⟨rfl, rfl⟩
    exact hsame (by simp) (by simp) rfl (hset.trans (SamePriorities.locks hrep))
  | setEffective p =>
    have hset : SameLocks (σ.setCode σ.current rest) _ := sameLocks_setThread (t := σ.current)
      (f := fun th => { th with effectivePriority := p }) fun _ => ⟨rfl, rfl⟩
    exact hsame (by simp) (by simp) rfl (hset.trans (SamePriorities.locks hrep))
  | updatePriority =>
    have hset : SameLocks (σ.setCode σ.current rest) _ := sameLocks_setThread (t := σ.current)
      (f := fun th => { th with
        effectivePriority := (σ.setCode σ.current rest).maxPriority σ.current })
      fun _ => ⟨rfl, rfl⟩
    exact hsame (by simp) (by simp) rfl (hset.trans (SamePriorities.locks hrep))
  | down s =>
    cases s with
    | other n =>
      rcases hrep with ⟨-, hrep⟩ | ⟨-, hrep⟩
      · exact hsame (by simp) (by simp) rfl hrep.locks
      · exact hsame (by simp) (by simp) rfl ((sameLocks_setSema _ n _).trans hrep.locks)
    | lock l =>
      have hat' : ∀ t l', AtLock (σ'.code t) l' ↔ AtLock (σ.code t) l' := fun t l' => by
        rcases Classical.em (t = σ.current) with rfl | ht
        · rw [hnext, hhead]
          simp [Region.lockNext]
        · exact hat t l' ht
      rcases semaDownTurn_cases hpop.listed.implemented hrun with ⟨hzero, rfl⟩ | ⟨hpos, rfl⟩
      · refine h.same (hpopped.trans ?_) hat' fun t l' ht => ?_
        · exact (hrep.resolve_right fun hpos => hpos.1 hzero).2.locks
        · obtain ⟨rfl, -⟩ := htake t l' ht
          have hwait := code_wait (σ.setCode σ.current rest) (.lock l)
          rw [show ((σ.setCode σ.current rest).wait (.lock l)).code σ.current = _ from hwait] at ht
          cases ht
      · have hlocks : SameLocks (σ.setSema (.lock l) { σ.semas (.lock l) with
            value := (σ.semas (.lock l)).value - 1 }) ((σ.setCode σ.current rest).setSema (.lock l)
              { σ.semas (.lock l) with value := (σ.semas (.lock l)).value - 1 }) :=
          ⟨fun _ => rfl, fun _ => rfl, fun _ => rfl, fun _ => rfl, rfl, rfl⟩
        refine h.downed hlocks hpos rfl hat' fun t l' ht => ?_
        obtain ⟨rfl, hl⟩ := htake t l' ht
        cases hl
        exact ⟨rfl, rfl⟩
  | tryDown s =>
    cases s with
    | lock l => cases hform
    | other n =>
      exact hsame (by simp) (by simp) rfl
        ((sameLocks_setSema _ n _).trans (SamePriorities.locks hrep))
  | up s =>
    cases s with
    | lock l => cases hform
    | other n =>
      obtain ⟨sema, -, hrep⟩ := hrep
      exact hsame (by simp) (by simp) rfl ((sameLocks_setSema _ n sema).trans hrep.locks)
  | acquire l =>
    obtain ⟨-, σ₁, hdonate, hrep⟩ := hrep
    have hlocks : SameLocks (σ.donateTo l) ((σ.setCode σ.current rest).donateTo l) :=
      ⟨fun _ => rfl, fun _ => rfl, fun _ => rfl, fun _ => rfl, rfl, rfl⟩
    have hloop : SameLocks ((σ.setCode σ.current rest).donateTo l) σ₁ := by
      rcases hdonate with ⟨-, rfl⟩ | ⟨-, hloop⟩
      · exact ⟨fun _ => rfl, fun _ => rfl, fun _ => rfl, fun _ => rfl, rfl, rfl⟩
      · exact donateLoop_locks hloop
    refine h.donateTo (l := l) (hlocks.trans (hloop.trans hrep.locks)) (fun l' => ?_) hat
      fun t l' ht => ?_
    · rw [hnext]
      simp [Region.lockNext]
    · cases (htake t l' ht).2
  | take l =>
    obtain ⟨-, hfree, hzero⟩ := h.taking σ.current l (by rw [hcode]; rfl)
    have hlocks : SameLocks (σ.take l) ((σ.setCode σ.current rest).take l) :=
      ⟨fun _ => rfl, fun _ => rfl, fun _ => rfl, fun _ => rfl, rfl, rfl⟩
    have hborn : σ.current < σ.nextThread := not_le.1 fun hle =>
      hplaced.not_unborn_current (.inl hle)
    refine h.take (hlocks.trans (SamePriorities.locks hrep)) hfree hzero hborn (fun l' => ?_) hat
      fun t l' ht => ?_
    · rw [hnext]
      simp [Region.lockNext]
    · cases (htake t l' ht).2
  | release l =>
    obtain ⟨hheld, sema, hvalue, hrep⟩ := hrep
    obtain ⟨hat', htaking⟩ := hplain (by simp) (by simp) rfl
    have hlocks : SameLocks ((σ.drop l).setSema (.lock l) sema)
        (((σ.setCode σ.current rest).drop l).setSema (.lock l) sema) :=
      ⟨fun _ => rfl, fun _ => rfl, fun _ => rfl, fun _ => rfl, rfl, rfl⟩
    exact h.release ((hlocks.trans (sameLocks_release _ l sema)).trans hrep.locks) hheld hvalue
      hat' htaking

/-- One step keeps the invariant. -/
theorem LockInv.step {σ σ' : Machine} {e : Event} (h : LockInv σ) (hplaced : Placed σ)
    (hformed : ∀ t, Formed (σ.code t)) (hs : MachineStep σ e σ') : LockInv σ' := by
  have htaking : σ.Interruptible → ∀ t l, (σ.code t).head? ≠ some (.take l) :=
    fun hint t l ht => by
      obtain ⟨rfl, -⟩ := h.taking t l ht
      have hoff := hint _ ht
      simp [Region.interruptible] at hoff
  cases hs with
  | call c hnil _ =>
    have hcode : ∀ t l, (AtLock ((σ.setCode σ.current c.regions).code t) l ↔
        AtLock (σ.code t) l) ∧ ((σ.setCode σ.current c.regions).code t).head? ≠ some (.take l) :=
      fun t l => by
        rcases Classical.em (t = σ.current) with rfl | ht
        · rw [hnil]
          simp only [Machine.setCode, Function.update_self]
          cases c <;> simp [AtLock, Call.regions]
        · have hsame : (σ.setCode σ.current c.regions).code t = σ.code t := by
            simp [Machine.setCode, ht]
          rw [hsame]
          exact ⟨Iff.rfl, fun hhead => ht (h.taking t l hhead).1⟩
    exact h.same (sameLocks_setCode σ _ _) (fun t l => (hcode t l).1) fun t l => (hcode t l).2
  | run r rest hcode _ hrun => exact h.execute hplaced hformed hcode hrun
  | tick hint hrun =>
    have hcode := timerTick_code hplaced hrun
    exact h.same (timerTick_priorities hplaced hrun).locks (fun t l => by rw [hcode])
      (hcode ▸ htaking hint)
  | deviceUp n hint hrun =>
    have hcode := semaUp_code hplaced.listed.implemented hrun
    obtain ⟨sema, -, hsame⟩ := semaUp_priorities hplaced.listed.implemented hrun
    exact h.same ((sameLocks_setSema σ n sema).trans hsame.locks) (fun t l => by rw [hcode])
      (hcode ▸ htaking hint)

/-- The invariant holds after boot. -/
theorem lockInv_boot (policy : SchedPolicy) (values : ℕ → UInt32) (memory : ℕ → Bool) :
    LockInv (boot policy values memory) := by
  have hthread : ∀ t, ((boot policy values memory).threads t).donatedTo = none ∧
      ((boot policy values memory).threads t).donatedLocks = [] := fun t => by
    unfold boot
    dsimp only
    split
    · exact ⟨rfl, rfl⟩
    · split <;> exact ⟨rfl, rfl⟩
  refine ⟨fun t l => ?_, fun t l => ?_, fun t => ?_, fun l => .inr ⟨rfl, rfl⟩,
    fun t l ht => ?_, fun l t hl => ?_, fun t => ?_⟩
  · rw [(hthread t).1]
    simp [AtLock, boot]
  · rw [(hthread t).2]
    simp [boot]
  · rw [(hthread t).2]
    exact List.nodup_nil
  · cases ht
  · cases hl
  · show t ∈ [0, 1] ↔ (t : ℕ) < 2
    simp only [List.mem_cons, List.not_mem_nil, or_false]
    exact ⟨fun ht => by rcases ht with rfl | rfl <;> decide, fun ht => by
      rcases Nat.lt_succ_iff_lt_or_eq.1 ht with ht | ht
      · exact .inl (Nat.lt_one_iff.1 ht)
      · exact .inr ht⟩

theorem Reached.lockInv {policy : SchedPolicy} {ok : Machine → Event → Prop} {σ : Machine}
    (h : Reached policy ok σ) (hplaced : ∀ τ, Reached policy ok τ → Placed τ) : LockInv σ := by
  induction h with
  | boot values memory => exact lockInv_boot policy values memory
  | step h _ hs ih => exact ih.step (hplaced _ h) (h.formed hplaced) hs

end Threads
end CS162

/-
# The lists of threads

`projects1-3/src/threads/thread.c`, lines 239-307, 370-401 and 540-554, and
`projects1-3/src/threads/synch.c`, lines 65-252.

One `elem` serves a thread for the ready lists, the waiters of a semaphore and
`sleeping_list`.  `Listed` says which list a thread is in for its status and for
the region it goes on with.  Every region keeps it (`Placed.execute`), except
that `recurse_donate` puts a ready thread into `priority_queue` under every
policy.  Under `SCHED_FIFO` such a thread is lost (`not_noLostThread`); as long
as no ready thread is raised, none is (`noLostThread_of_sparing`).
-/

import CS162.Threads.Effects

namespace CS162
namespace Threads

open CS162.Basis CS162.Lib

/-- The status of a thread. -/
def Machine.status (σ : Machine) (t : ThreadId) : ThreadStatus := (σ.threads t).status

/-- The waiters of a semaphore. -/
def Machine.waiters (σ : Machine) (s : SemaId) : List ThreadId := (σ.semas s).waiters

/-- The threads in each list are those that belong there; `running` is the
thread that runs, if the scheduler is not just choosing one. -/
structure Listed (σ : Machine) (running : Option ThreadId) : Prop where
  implemented : σ.policy.Implemented
  running : ∀ t, σ.status t = .running ↔ running = some t
  ready : ∀ t, t ∈ σ.readyList ↔ σ.status t = .ready ∧ t ≠ σ.idleThread
  nodup : σ.readyList.Nodup
  other : σ.otherList = []
  waiting : ∀ s, ∀ t ∈ σ.waiters s, σ.status t = .blocked ∧ (σ.code t).head? = some (.down s)
  waitingNodup : ∀ s, (σ.waiters s).Nodup
  sleeping : ∀ t ∈ σ.sleepingList, σ.status t = .blocked ∧ (σ.code t).head? = some .slept
  sleepingNodup : σ.sleepingList.Nodup

/-- Machines that do not differ in what `Listed` speaks of. -/
structure SameLists (σ σ' : Machine) : Prop where
  policy : σ'.policy = σ.policy
  idleThread : σ'.idleThread = σ.idleThread
  fifoReadyList : σ'.fifoReadyList = σ.fifoReadyList
  priorityQueue : σ'.priorityQueue = σ.priorityQueue
  sleepingList : σ'.sleepingList = σ.sleepingList
  waiters : ∀ s, σ'.waiters s = σ.waiters s
  status : ∀ t, σ'.status t = σ.status t
  code : σ'.code = σ.code

theorem SameLists.readyList {σ σ' : Machine} (h : SameLists σ σ') :
    σ'.readyList = σ.readyList := by
  unfold Machine.readyList
  rw [h.policy, h.fifoReadyList, h.priorityQueue]

theorem SameLists.otherList {σ σ' : Machine} (h : SameLists σ σ') :
    σ'.otherList = σ.otherList := by
  unfold Machine.otherList
  rw [h.policy, h.fifoReadyList, h.priorityQueue]

theorem Listed.congr {σ σ' : Machine} {running : Option ThreadId} (h : Listed σ running)
    (hsame : SameLists σ σ') : Listed σ' running where
  implemented := hsame.policy.symm ▸ h.implemented
  running t := by rw [hsame.status, h.running]
  ready t := by rw [hsame.readyList, h.ready, hsame.status, hsame.idleThread]
  nodup := hsame.readyList.symm ▸ h.nodup
  other := hsame.otherList.trans h.other
  waiting s t ht := by
    rw [hsame.status, hsame.code]
    exact h.waiting s t (hsame.waiters s ▸ ht)
  waitingNodup s := (hsame.waiters s).symm ▸ h.waitingNodup s
  sleeping t ht := by
    rw [hsame.status, hsame.code]
    exact h.sleeping t (hsame.sleepingList ▸ ht)
  sleepingNodup := hsame.sleepingList.symm ▸ h.sleepingNodup

/-! ### One thread changes place -/

@[simp] theorem status_setThread (σ : Machine) (t u : ThreadId) (f : Thread → Thread) :
    (σ.setThread t f).status u = if u = t then (f (σ.threads t)).status else σ.status u := by
  unfold Machine.status Machine.setThread
  rcases Classical.em (u = t) with rfl | hut
  · simp
  · simp [hut]

@[simp] theorem status_setStatus (σ : Machine) (t u : ThreadId) (status : ThreadStatus) :
    (σ.setStatus t status).status u = if u = t then status else σ.status u := by
  rw [Machine.setStatus, status_setThread]

@[simp] theorem status_enqueue (σ : Machine) (t u : ThreadId) :
    (σ.enqueue t).status u = σ.status u := rfl

theorem readyList_enqueue (σ : Machine) (t : ThreadId) :
    (σ.enqueue t).readyList.Perm (t :: σ.readyList) := by
  unfold Machine.readyList Machine.enqueue
  dsimp only
  split
  · exact List.perm_append_singleton t σ.fifoReadyList
  · exact listInsertOrdered_perm _ t σ.priorityQueue

theorem otherList_enqueue (σ : Machine) (t : ThreadId) :
    (σ.enqueue t).otherList = σ.otherList := by
  unfold Machine.otherList Machine.enqueue
  dsimp only
  split <;> rfl

/-- A thread that is in no list becomes ready. -/
theorem Listed.makeReady {σ : Machine} {running running' : Option ThreadId} (h : Listed σ running)
    {t : ThreadId} (ht : t ≠ σ.idleThread) (hready : σ.status t ≠ .ready)
    (hwaiting : ∀ s, t ∉ σ.waiters s) (hsleeping : t ∉ σ.sleepingList)
    (hrunning : ∀ u, running' = some u ↔ u ≠ t ∧ running = some u) :
    Listed (σ.unblock t) running' := by
  have hperm := readyList_enqueue σ t
  have hout : t ∉ σ.readyList := fun hmem => hready ((h.ready t).1 hmem).1
  have hstatus : ∀ u, u ≠ t → (σ.unblock t).status u = σ.status u := fun u hut => by
    simp [Machine.unblock, hut]
  have hself : (σ.unblock t).status t = .ready := by simp [Machine.unblock]
  refine ⟨h.implemented, fun u => ?_, fun u => ?_, ?_, ?_, fun s u hu => ?_, h.waitingNodup,
    fun u hu => ?_, h.sleepingNodup⟩
  · rcases Classical.em (u = t) with rfl | hut
    · simp [hself, hrunning]
    · rw [hstatus u hut, h.running, hrunning]
      exact ⟨fun hu => ⟨hut, hu⟩, And.right⟩
  · show u ∈ (σ.enqueue t).readyList ↔ _
    rw [hperm.mem_iff, List.mem_cons, h.ready]
    rcases Classical.em (u = t) with rfl | hut
    · exact ⟨fun _ => ⟨hself, ht⟩, fun _ => .inl rfl⟩
    · rw [hstatus u hut]
      exact ⟨fun hu => hu.resolve_left hut, .inr⟩
  · exact hperm.symm.nodup (List.nodup_cons.2 ⟨hout, h.nodup⟩)
  · exact (otherList_enqueue σ t).trans h.other
  · have hut : u ≠ t := fun hut => hwaiting s (hut ▸ hu)
    rw [hstatus u hut]
    exact h.waiting s u hu
  · have hut : u ≠ t := fun hut => hsleeping (hut ▸ hu)
    rw [hstatus u hut]
    exact h.sleeping u hu

/-- The running thread stops running; unless it is `idle`, it goes to the ready
list. -/
theorem Listed.suspend {σ : Machine} (h : Listed σ (some σ.current)) : Listed σ.suspend none := by
  have hrun : σ.status σ.current = .running := (h.running σ.current).2 rfl
  have hwaiting : ∀ s, σ.current ∉ σ.waiters s := fun s hmem => by
    rw [(h.waiting s _ hmem).1] at hrun
    cases hrun
  have hsleeping : σ.current ∉ σ.sleepingList := fun hmem => by
    rw [(h.sleeping _ hmem).1] at hrun
    cases hrun
  unfold Machine.suspend
  split
  · rename_i hidle
    have hstatus : ∀ u, u ≠ σ.current →
        (σ.setStatus σ.current .ready).status u = σ.status u := fun u hu => by simp [hu]
    refine ⟨h.implemented, fun u => ?_, fun u => ?_, h.nodup, h.other, fun s u hu => ?_,
      h.waitingNodup, fun u hu => ?_, h.sleepingNodup⟩
    · rcases Classical.em (u = σ.current) with rfl | hu
      · simp
      · rw [hstatus u hu, h.running]
        simp [Ne.symm hu]
    · show u ∈ σ.readyList ↔ _ ∧ u ≠ σ.idleThread
      rw [h.ready]
      rcases Classical.em (u = σ.current) with rfl | hu
      · simp [hidle]
      · rw [hstatus u hu]
    · rw [hstatus u fun huc => hwaiting s (huc ▸ hu)]
      exact h.waiting s u hu
    · rw [hstatus u fun huc => hsleeping (huc ▸ hu)]
      exact h.sleeping u hu
  · rename_i hidle
    refine h.makeReady hidle (by simp [hrun]) hwaiting hsleeping fun u => ?_
    simp only [reduceCtorEq, Option.some.injEq, false_iff, not_and]
    exact fun hu huc => hu huc.symm

/-- The running thread blocks, in a state in which it has its place already. -/
theorem Listed.block {σ σ' : Machine} (h : Listed σ (some σ.current))
    (hpolicy : σ'.policy = σ.policy) (hidle : σ'.idleThread = σ.idleThread)
    (hfifo : σ'.fifoReadyList = σ.fifoReadyList) (hprio : σ'.priorityQueue = σ.priorityQueue)
    (hstatus : ∀ t, σ'.status t = if t = σ.current then .blocked else σ.status t)
    (hcode : ∀ t, t ≠ σ.current → σ'.code t = σ.code t)
    (hwaiting : ∀ s, σ'.waiters s = σ.waiters s ∨ σ'.waiters s = σ.waiters s ++ [σ.current] ∧
      (σ'.code σ.current).head? = some (.down s))
    (hsleeping : σ'.sleepingList = σ.sleepingList ∨
      σ'.sleepingList.Perm (σ.current :: σ.sleepingList) ∧
        (σ'.code σ.current).head? = some .slept) : Listed σ' none := by
  have hrun : σ.status σ.current = .running := (h.running σ.current).2 rfl
  have hlists : σ'.readyList = σ.readyList ∧ σ'.otherList = σ.otherList := by
    unfold Machine.readyList Machine.otherList
    rw [hpolicy, hfifo, hprio]
    exact ⟨rfl, rfl⟩
  have hself : σ'.status σ.current = .blocked := by rw [hstatus, if_pos rfl]
  have hother : ∀ t, t ≠ σ.current → σ'.status t = σ.status t := fun t ht => by
    rw [hstatus, if_neg ht]
  have hout : ∀ s, σ.current ∉ σ.waiters s := fun s hmem => by
    rw [(h.waiting s _ hmem).1] at hrun
    cases hrun
  have houts : σ.current ∉ σ.sleepingList := fun hmem => by
    rw [(h.sleeping _ hmem).1] at hrun
    cases hrun
  have hwaits : ∀ s, ∀ t ∈ σ.waiters s, σ'.status t = .blocked ∧
      (σ'.code t).head? = some (.down s) := fun s t ht => by
    have hne : t ≠ σ.current := fun htc => hout s (htc ▸ ht)
    rw [hother t hne, hcode t hne]
    exact h.waiting s t ht
  have hsleeps : ∀ t ∈ σ.sleepingList, σ'.status t = .blocked ∧
      (σ'.code t).head? = some .slept := fun t ht => by
    have hne : t ≠ σ.current := fun htc => houts (htc ▸ ht)
    rw [hother t hne, hcode t hne]
    exact h.sleeping t ht
  refine ⟨hpolicy.symm ▸ h.implemented, fun t => ?_, fun t => ?_, hlists.1.symm ▸ h.nodup,
    hlists.2.trans h.other, fun s t ht => ?_, fun s => ?_, fun t ht => ?_, ?_⟩
  · rcases Classical.em (t = σ.current) with rfl | ht
    · simp [hself]
    · rw [hother t ht, h.running]
      simp [Ne.symm ht]
  · rw [hlists.1, h.ready, hidle]
    rcases Classical.em (t = σ.current) with rfl | ht
    · simp [hself, hrun]
    · rw [hother t ht]
  · rcases hwaiting s with heq | ⟨heq, hhead⟩
    · exact hwaits s t (heq ▸ ht)
    · rw [heq] at ht
      rcases List.mem_append.1 ht with ht | ht
      · exact hwaits s t ht
      · rw [List.mem_singleton.1 ht]
        exact ⟨hself, hhead⟩
  · rcases hwaiting s with heq | ⟨heq, -⟩
    · exact heq.symm ▸ h.waitingNodup s
    · rw [heq]
      exact (List.perm_append_singleton σ.current (σ.waiters s)).symm.nodup
        (List.nodup_cons.2 ⟨hout s, h.waitingNodup s⟩)
  · rcases hsleeping with heq | ⟨hperm, hhead⟩
    · exact hsleeps t (heq ▸ ht)
    · rcases List.mem_cons.1 (hperm.mem_iff.1 ht) with rfl | ht
      · exact ⟨hself, hhead⟩
      · exact hsleeps t ht
  · rcases hsleeping with heq | ⟨hperm, -⟩
    · exact heq.symm ▸ h.sleepingNodup
    · exact hperm.symm.nodup (List.nodup_cons.2 ⟨houts, h.sleepingNodup⟩)

theorem readyList_dispatch (σ : Machine) : σ.dispatch.readyList = σ.readyList.tail := by
  rcases Classical.em (σ.policy = .fifo) with h | h <;>
    simp [Machine.readyList, Machine.dispatch, Machine.setStatus, Machine.setThread, h]

theorem otherList_dispatch (σ : Machine) : σ.dispatch.otherList = σ.otherList := by
  rcases Classical.em (σ.policy = .fifo) with h | h <;>
    simp [Machine.otherList, Machine.dispatch, Machine.setStatus, Machine.setThread, h]

@[simp] theorem status_dispatch (σ : Machine) (t : ThreadId) :
    σ.dispatch.status t = if t = σ.next then .running else σ.status t :=
  status_setStatus σ σ.next t .running

/-- **The scheduler takes the next thread off the ready list.** -/
theorem Listed.dispatch {σ : Machine} (h : Listed σ none)
    (hwaiting : ∀ s, σ.idleThread ∉ σ.waiters s) (hsleeping : σ.idleThread ∉ σ.sleepingList) :
    Listed σ.dispatch (some σ.dispatch.current) := by
  have hnone : ∀ t, σ.status t ≠ .running := fun t ht => by
    have := (h.running t).1 ht
    cases this
  -- the next thread is in no list of blocked threads
  have hnext : (σ.next ∈ σ.readyList ∨ σ.next = σ.idleThread) := by
    unfold Machine.next
    cases σ.readyList with
    | nil => exact .inr rfl
    | cons t ready => exact .inl List.mem_cons_self
  have hout : ∀ s, σ.next ∉ σ.waiters s := fun s hmem => by
    rcases hnext with hready | hidle
    · have := (h.ready _).1 hready
      rw [(h.waiting s _ hmem).1] at this
      cases this.1
    · exact hwaiting s (hidle ▸ hmem)
  have houts : σ.next ∉ σ.sleepingList := fun hmem => by
    rcases hnext with hready | hidle
    · have := (h.ready _).1 hready
      rw [(h.sleeping _ hmem).1] at this
      cases this.1
    · exact hsleeping (hidle ▸ hmem)
  have htail : ∀ t, t ∈ σ.readyList.tail ↔ t ∈ σ.readyList ∧ t ≠ σ.next := by
    have hnodup := h.nodup
    have hready := h.ready
    unfold Machine.next
    cases hlist : σ.readyList with
    | nil => simp
    | cons u ready =>
      rw [hlist] at hnodup
      intro t
      show t ∈ ready ↔ t ∈ u :: ready ∧ t ≠ u
      rw [List.mem_cons]
      constructor
      · intro ht
        exact ⟨.inr ht, fun htu => (List.nodup_cons.1 hnodup).1 (htu ▸ ht)⟩
      · rintro ⟨ht, htu⟩
        exact ht.resolve_left htu
  refine ⟨h.implemented, fun t => ?_, fun t => ?_, ?_, ?_, fun s t ht => ?_, h.waitingNodup,
    fun t ht => ?_, h.sleepingNodup⟩
  · rw [status_dispatch]
    show _ ↔ some σ.next = some t
    rcases Classical.em (t = σ.next) with rfl | ht
    · simp
    · simp [ht, hnone t, Ne.symm ht]
  · rw [readyList_dispatch, htail, h.ready, status_dispatch]
    show _ ↔ _ ∧ t ≠ σ.idleThread
    rcases Classical.em (t = σ.next) with rfl | ht
    · simp
    · simp [ht]
  · rw [readyList_dispatch]
    exact h.nodup.tail
  · rw [otherList_dispatch]
    exact h.other
  · have hne : t ≠ σ.next := fun heq => hout s (heq ▸ ht)
    rw [status_dispatch, if_neg hne]
    exact h.waiting s t ht
  · have hne : t ≠ σ.next := fun heq => houts (heq ▸ ht)
    rw [status_dispatch, if_neg hne]
    exact h.sleeping t ht

/-! ### Donation -/

theorem sameLists_setEff (σ : Machine) (t : ThreadId) (p : ℤ) : SameLists σ (σ.setEff t p) :=
  ⟨rfl, rfl, rfl, rfl, rfl, fun _ => rfl, fun u => by
    rw [Machine.setEff, status_setThread]
    split
    · rename_i hut
      rw [hut]
      rfl
    · rfl, rfl⟩

theorem status_raise (σ : Machine) (t u : ThreadId) (p : ℤ) :
    (σ.raise t p).status u = σ.status u := by
  unfold Machine.raise
  split
  · exact (sameLists_setEff σ t p).status u
  · exact (sameLists_setEff σ t p).status u

/-- Under `SCHED_PRIO` a raised thread stays in its list. -/
theorem Listed.raise {σ : Machine} {running : Option ThreadId} (h : Listed σ running)
    {t : ThreadId} {p : ℤ} (hsparing : σ.policy = .prio ∨ σ.status t ≠ .ready)
    (hlinked : σ.status t = .ready → σ.Linked t) : Listed (σ.raise t p) running := by
  have hset := h.congr (sameLists_setEff σ t p)
  unfold Machine.raise
  split
  · rename_i hready
    have hprio : σ.policy = .prio := hsparing.resolve_right fun hne => hne hready
    have hfifo : σ.fifoReadyList = [] := by
      have := h.other
      unfold Machine.otherList at this
      rwa [if_neg (by simp [hprio])] at this
    have hlist : ∀ σ₁ : Machine, σ₁.policy = .prio → σ₁.readyList = σ₁.priorityQueue :=
      fun σ₁ h₁ => by
        unfold Machine.readyList
        rw [if_neg (by simp [h₁])]
    have hmem : t ∈ σ.priorityQueue := by
      rcases hlinked hready with hmem | hmem
      · rw [hfifo] at hmem
        cases hmem
      · exact hmem
    have hperm : ((σ.setEff t p).requeue t).readyList.Perm (σ.setEff t p).readyList := by
      rw [hlist ((σ.setEff t p).requeue t) hprio, hlist (σ.setEff t p) hprio]
      exact (listInsertOrdered_perm _ t _).trans (List.perm_cons_erase hmem).symm
    refine ⟨hset.implemented, hset.running, fun u => ?_, hperm.symm.nodup hset.nodup, ?_,
      hset.waiting, hset.waitingNodup, hset.sleeping, hset.sleepingNodup⟩
    · rw [hperm.mem_iff]
      exact hset.ready u
    · unfold Machine.otherList
      rw [if_neg (by simp [Machine.requeue, Machine.setEff, Machine.setThread, hprio])]
      show σ.fifoReadyList.erase t = []
      rw [hfifo]
      rfl
  · exact hset

/-- `recurse_donate` at priority `p` comes to `t` from `curr`. -/
inductive Machine.Raises (σ : Machine) (p : ℤ) : ThreadId → ThreadId → Prop where
  | head {curr next : ThreadId} :
      σ.waitsOn curr = some next → σ.eff next < p → σ.Raises p curr next
  | tail {curr next t : ThreadId} :
      σ.waitsOn curr = some next → σ.eff next < p → σ.Raises p next t → σ.Raises p curr t

theorem waitsOn_setThread (σ : Machine) (t u : ThreadId) (f : Thread → Thread)
    (hf : (f (σ.threads t)).donatedTo = (σ.threads t).donatedTo) :
    (σ.setThread t f).waitsOn u = σ.waitsOn u := by
  unfold Machine.waitsOn Machine.setThread
  rcases Classical.em (u = t) with rfl | hut
  · simp [hf]
  · simp [hut]

theorem waitsOn_raise (σ : Machine) (t u : ThreadId) (p : ℤ) :
    (σ.raise t p).waitsOn u = σ.waitsOn u := by
  unfold Machine.raise
  split
  · exact waitsOn_setThread σ t u (fun th => { th with effectivePriority := p }) rfl
  · exact waitsOn_setThread σ t u (fun th => { th with effectivePriority := p }) rfl

theorem Machine.Raises.mono {σ σ' : Machine} {p : ℤ} {curr t : ThreadId}
    (h : σ'.Raises p curr t) (hback : ∀ u v, σ'.waitsOn u = some v → σ'.eff v < p →
      σ.waitsOn u = some v ∧ σ.eff v < p) : σ.Raises p curr t := by
  induction h with
  | head hw hlt =>
    obtain ⟨hw, hlt⟩ := hback _ _ hw hlt
    exact .head hw hlt
  | tail hw hlt _ ih =>
    obtain ⟨hw, hlt⟩ := hback _ _ hw hlt
    exact .tail hw hlt ih

/-- A turn of `recurse_donate` brings it to no further threads. -/
theorem Machine.Raises.of_raise {σ : Machine} {p : ℤ} {next curr t : ThreadId}
    (h : (σ.raise next p).Raises p curr t) : σ.Raises p curr t := by
  refine h.mono fun u v hu hv => ?_
  rw [waitsOn_raise] at hu
  rw [eff_raise] at hv
  split at hv
  · exact absurd hv (lt_irrefl p)
  · exact ⟨hu, hv⟩

/-- No donation by `t` raises a thread that is ready, or the raised thread's
list is the right one. -/
def Machine.Sparing (σ : Machine) (t : ThreadId) : Prop :=
  σ.policy = .prio ∨ ∀ u, σ.Raises (σ.eff t) t u → σ.status u ≠ .ready

/-- What `recurse_donate` leaves alone. -/
structure Donated (σ σ' : Machine) : Prop where
  policy : σ'.policy = σ.policy
  current : σ'.current = σ.current
  idleThread : σ'.idleThread = σ.idleThread
  code : σ'.code = σ.code
  nextThread : σ'.nextThread = σ.nextThread
  status : ∀ t, σ'.status t = σ.status t

theorem Donated.refl (σ : Machine) : Donated σ σ := ⟨rfl, rfl, rfl, rfl, rfl, fun _ => rfl⟩

theorem donated_raise (σ : Machine) (t : ThreadId) (p : ℤ) : Donated σ (σ.raise t p) := by
  refine ⟨?_, ?_, ?_, ?_, ?_, fun u => status_raise σ t u p⟩ <;>
    · unfold Machine.raise
      split <;> rfl

theorem Donated.trans {σ σ' σ'' : Machine} (h : Donated σ σ') (h' : Donated σ' σ'') :
    Donated σ σ'' :=
  ⟨h'.policy.trans h.policy, h'.current.trans h.current, h'.idleThread.trans h.idleThread,
    h'.code.trans h.code, h'.nextThread.trans h.nextThread,
    fun t => (h'.status t).trans (h.status t)⟩

theorem Listed.donateLoop {σ σ' : Machine} {fuel : ℕ} {t : ThreadId} {running : Option ThreadId}
    (h : Listed σ running) (hsparing : σ.Sparing t)
    (hrun : (donateLoop fuel t).run σ = some ((), σ')) : Listed σ' running ∧ Donated σ σ' := by
  obtain ⟨-, ⟨hlisted, hdonated, -⟩, -⟩ := donateLoop_rule (p := σ.eff t)
    (I := fun curr τ => Listed τ running ∧ Donated σ τ ∧
      (τ.policy = .prio ∨ ∀ u, τ.Raises (σ.eff t) curr u → τ.status u ≠ .ready))
    (fun τ curr next hI _ hnext hlt hlinked => by
      obtain ⟨hlisted, hdonated, hspare⟩ := hI
      refine ⟨hlisted.raise (hspare.imp id fun hall => hall next (.head hnext hlt)) hlinked,
        hdonated.trans (donated_raise τ next (σ.eff t)), ?_⟩
      rcases hspare with hprio | hall
      · exact .inl ((donated_raise τ next (σ.eff t)).policy.trans hprio)
      · refine .inr fun u hu => ?_
        rw [status_raise]
        exact hall u (.tail hnext hlt hu.of_raise))
    hrun rfl ⟨h, .refl σ, hsparing⟩
  exact ⟨hlisted, hdonated⟩

/-! ### What threads go on with -/

/-- A thread that has not been handed to the scheduler: its page is not taken
yet, or `thread_create` has still to unblock it. -/
def Machine.Unborn (σ : Machine) (t : ThreadId) : Prop :=
  σ.nextThread ≤ t ∨ ∃ c, .start t ∈ σ.code c

/-- A thread that is blocked and has nothing to go on with. -/
def Machine.Dormant (σ : Machine) (t : ThreadId) : Prop :=
  σ.status t = .blocked ∧ σ.code t = [] ∧ t ≠ σ.idleThread

/-- `idle` only blocks, and each thread created is unblocked once. -/
structure Coded (σ : Machine) : Prop where
  idle : ∀ r ∈ σ.code σ.idleThread, r = .block ∨ r = .resumed
  unborn : ∀ t, σ.Unborn t → σ.Dormant t
  lt : ∀ c t, .start t ∈ σ.code c → t < σ.nextThread
  starter : ∀ c c' t, .start t ∈ σ.code c → .start t ∈ σ.code c' → c = c'
  once : ∀ c t, (σ.code c).count (.start t) ≤ 1

/-- The lists and what the threads go on with fit together. -/
structure Placed (σ : Machine) : Prop where
  listed : Listed σ (some σ.current)
  coded : Coded σ

theorem Coded.idle_not_waiting {σ : Machine} {running : Option ThreadId} (h : Coded σ)
    (hlisted : Listed σ running) (s : SemaId) : σ.idleThread ∉ σ.waiters s := by
  intro hmem
  have hhead := (hlisted.waiting s _ hmem).2
  rcases h.idle _ (List.mem_of_mem_head? hhead) with hr | hr <;> cases hr

theorem Coded.idle_not_sleeping {σ : Machine} {running : Option ThreadId} (h : Coded σ)
    (hlisted : Listed σ running) : σ.idleThread ∉ σ.sleepingList := by
  intro hmem
  have hhead := (hlisted.sleeping _ hmem).2
  rcases h.idle _ (List.mem_of_mem_head? hhead) with hr | hr <;> cases hr

/-- Code in which only one thread's has changed, and starts no more threads. -/
theorem Coded.of_code {σ σ' : Machine} (h : Coded σ) {c : ThreadId}
    (hidle : σ'.idleThread = σ.idleThread) (hnext : σ'.nextThread = σ.nextThread)
    (hcode : ∀ t, t ≠ c → σ'.code t = σ.code t)
    (hstarts : ∀ t, (σ'.code c).count (.start t) ≤ (σ.code c).count (.start t))
    (hblock : ∀ r ∈ σ'.code σ.idleThread, r = .block ∨ r = .resumed)
    (hdormant : ∀ t, σ.Dormant t → ¬σ.Unborn t ∨ σ'.Dormant t) : Coded σ' := by
  have hmem : ∀ c' t, .start t ∈ σ'.code c' → .start t ∈ σ.code c' := fun c' t ht => by
    rcases Classical.em (c' = c) with rfl | hc
    · exact List.count_pos_iff.1 ((List.count_pos_iff.2 ht).trans_le (hstarts t))
    · rwa [hcode c' hc] at ht
  refine ⟨by rwa [hidle], fun t ht => ?_, fun c' t ht => ?_,
    fun c₁ c₂ t h₁ h₂ => h.starter c₁ c₂ t (hmem c₁ t h₁) (hmem c₂ t h₂), fun c' t => ?_⟩
  · have hunborn : σ.Unborn t := by
      rcases ht with ht | ⟨c', ht⟩
      · exact .inl (hnext ▸ ht)
      · exact .inr ⟨c', hmem c' t ht⟩
    exact (hdormant t (h.unborn t hunborn)).resolve_left (not_not.2 hunborn)
  · rw [hnext]
    exact h.lt c' t (hmem c' t ht)
  · rcases Classical.em (c' = c) with rfl | hc
    · exact (hstarts t).trans (h.once c' t)
    · rw [hcode c' hc]
      exact h.once c' t

/-- Code that has not changed. -/
theorem Coded.same {σ σ' : Machine} (h : Coded σ) (hidle : σ'.idleThread = σ.idleThread)
    (hnext : σ'.nextThread = σ.nextThread) (hcode : σ'.code = σ.code)
    (hdormant : ∀ t, σ.Dormant t → ¬σ.Unborn t ∨ σ'.Dormant t) : Coded σ' :=
  h.of_code (c := 0) hidle hnext (fun t _ => by rw [hcode]) (fun t => by rw [hcode])
    (fun r hr => h.idle r (hcode ▸ hr)) hdormant

theorem dormant_congr {σ σ' : Machine} {t : ThreadId} (h : σ.Dormant t)
    (hidle : σ'.idleThread = σ.idleThread) (hcode : σ'.code t = σ.code t)
    (hstatus : σ'.status t = σ.status t) : σ'.Dormant t := by
  unfold Machine.Dormant
  rw [hidle, hcode, hstatus]
  exact h

/-- What does not change a status, a list or code keeps everything in place. -/
theorem Placed.same {σ σ' : Machine} (h : Placed σ) (hsame : SameLists σ σ')
    (hcurrent : σ'.current = σ.current) (hnext : σ'.nextThread = σ.nextThread) : Placed σ' where
  listed := hcurrent.symm ▸ h.listed.congr hsame
  coded := h.coded.same hsame.idleThread hnext hsame.code fun t ht =>
    .inr (dormant_congr ht hsame.idleThread (by rw [hsame.code]) (hsame.status t))

/-- The scheduler does not touch a dormant thread. -/
theorem dormant_dispatch {σ : Machine} (h : Listed σ none) {t : ThreadId} (ht : σ.Dormant t) :
    σ.dispatch.Dormant t := by
  obtain ⟨hblocked, hcode, hidle⟩ := ht
  refine ⟨?_, hcode, hidle⟩
  rw [status_dispatch, if_neg fun heq => ?_]
  · exact hblocked
  · unfold Machine.next at heq
    cases hlist : σ.readyList with
    | nil =>
      rw [hlist] at heq
      exact hidle heq
    | cons u ready =>
      rw [hlist] at heq
      have hmem : t ∈ σ.readyList := by
        rw [hlist, show t = u from heq]
        exact List.mem_cons_self
      have hready := (h.ready t).1 hmem
      rw [hblocked] at hready
      cases hready.1

/-- Once nobody runs, the scheduler puts everything in place. -/
theorem Placed.dispatch {σ : Machine} (h : Listed σ none) (hcoded : Coded σ) :
    Placed σ.dispatch where
  listed := h.dispatch (hcoded.idle_not_waiting h) (hcoded.idle_not_sleeping h)
  coded := hcoded.same rfl rfl rfl fun _ ht => .inr (dormant_dispatch h ht)

theorem Placed.not_unborn_current {σ : Machine} (h : Placed σ) : ¬σ.Unborn σ.current := by
  intro hunborn
  have hblocked := (h.coded.unborn _ hunborn).1
  rw [(h.listed.running σ.current).2 rfl] at hblocked
  cases hblocked

theorem Placed.ne_current_of_dormant {σ : Machine} (h : Placed σ) {t : ThreadId}
    (ht : σ.Dormant t) : t ≠ σ.current := by
  intro heq
  have hblocked := ht.1
  rw [heq, (h.listed.running σ.current).2 rfl] at hblocked
  cases hblocked

/-- `thread_yield`. -/
theorem Placed.yield {σ : Machine} (h : Placed σ) : Placed σ.yield := by
  refine Placed.dispatch h.listed.suspend (h.coded.same ?_ ?_ ?_ fun t ht => .inr ?_)
  · unfold Machine.suspend
    split <;> rfl
  · unfold Machine.suspend
    split <;> rfl
  · unfold Machine.suspend
    split <;> rfl
  · have hne := h.ne_current_of_dormant ht
    unfold Machine.suspend
    split
    · exact dormant_congr ht rfl rfl (by rw [status_setStatus, if_neg hne])
    · exact dormant_congr ht rfl rfl (by rw [status_setStatus, if_neg hne, status_enqueue])

/-- `thread_unblock` of a thread that is in no list. -/
theorem Placed.unblock {σ : Machine} (h : Placed σ) {t : ThreadId} (ht : t ≠ σ.idleThread)
    (hblocked : σ.status t = .blocked) (hborn : ¬σ.Unborn t) (hwaiting : ∀ s, t ∉ σ.waiters s)
    (hsleeping : t ∉ σ.sleepingList) : Placed (σ.unblock t) where
  listed := h.listed.makeReady ht (by simp [hblocked]) hwaiting hsleeping fun u => by
    refine ⟨fun hu => ⟨fun hut => ?_, hu⟩, And.right⟩
    have hrun := (h.listed.running u).2 hu
    rw [hut, hblocked] at hrun
    cases hrun
  coded := h.coded.same rfl rfl rfl fun u hu => by
    rcases Classical.em (u = t) with rfl | hut
    · exact .inl hborn
    · exact .inr (dormant_congr hu rfl rfl (by rw [Machine.unblock, status_setStatus, if_neg hut,
        status_enqueue]))

/-- The running thread gets more to run. -/
theorem Placed.setCode {σ : Machine} (h : Placed σ) {code : List Region}
    (hidle : σ.current = σ.idleThread → ∀ r ∈ code, r = .block ∨ r = .resumed)
    (hstarts : ∀ t, code.count (.start t) ≤ (σ.code σ.current).count (.start t)) :
    Placed (σ.setCode σ.current code) := by
  have hself : (σ.setCode σ.current code).code σ.current = code := by
    simp [Machine.setCode]
  have hother : ∀ t, t ≠ σ.current → (σ.setCode σ.current code).code t = σ.code t :=
    fun t ht => by simp [Machine.setCode, ht]
  have hrun := (h.listed.running σ.current).2 rfl
  refine ⟨⟨h.listed.implemented, h.listed.running, h.listed.ready, h.listed.nodup, h.listed.other,
    fun s t ht => ?_, h.listed.waitingNodup, fun t ht => ?_, h.listed.sleepingNodup⟩,
    h.coded.of_code (c := σ.current) rfl rfl hother (fun t => ?_) (fun r hr => ?_)
      fun t ht => .inr ?_⟩
  · have hwaiting := h.listed.waiting s t ht
    have hne : t ≠ σ.current := fun heq => by
      rw [heq, hrun] at hwaiting
      cases hwaiting.1
    rw [hother t hne]
    exact hwaiting
  · have hsleeping := h.listed.sleeping t ht
    have hne : t ≠ σ.current := fun heq => by
      rw [heq, hrun] at hsleeping
      cases hsleeping.1
    rw [hother t hne]
    exact hsleeping
  · rw [hself]
    exact hstarts t
  · rcases Classical.em (σ.idleThread = σ.current) with heq | hne
    · rw [heq, hself] at hr
      exact hidle heq.symm r hr
    · rw [hother _ hne] at hr
      exact h.coded.idle r hr
  · have hne := h.ne_current_of_dormant ht
    exact dormant_congr ht rfl (hother t hne) rfl

/-- The running thread takes up its next region. -/
theorem Placed.pop {σ : Machine} (h : Placed σ) {r : Region} {rest : List Region}
    (hcode : σ.code σ.current = r :: rest) : Placed (σ.setCode σ.current rest) := by
  refine h.setCode (fun hc r hr => h.coded.idle r ?_) fun u => ?_
  · rw [← hc, hcode]
    exact List.mem_cons_of_mem _ hr
  · rw [hcode]
    exact List.count_le_count_cons

theorem Placed.current_ne_idle {σ : Machine} (h : Placed σ) {r : Region} {rest : List Region}
    (hcode : σ.code σ.current = r :: rest) (hblock : r ≠ .block) (hresumed : r ≠ .resumed) :
    σ.current ≠ σ.idleThread := by
  intro hc
  rcases h.coded.idle r (by rw [← hc, hcode]; exact List.mem_cons_self) with heq | heq
  · exact hblock heq
  · exact hresumed heq

/-- Regions that create no thread. -/
theorem Placed.push {σ : Machine} (h : Placed σ) {regions : List Region}
    (hidle : σ.current = σ.idleThread → ∀ r ∈ regions, r = .block ∨ r = .resumed)
    (hstarts : ∀ t, .start t ∉ regions) : Placed (σ.push regions) := by
  refine h.setCode (fun hc r hr => ?_) fun t => ?_
  · rcases List.mem_append.1 hr with hr | hr
    · exact hidle hc r hr
    · exact h.coded.idle r (hc ▸ hr)
  · rw [List.count_append, List.count_eq_zero_of_not_mem (hstarts t), Nat.zero_add]

/-- The running thread blocks, in a state in which it has its place already. -/
theorem Placed.block {σ σ₁ : Machine} (h : Placed σ) (regions : List Region)
    (hidle : σ.current = σ.idleThread → ∀ r ∈ regions, r = .block ∨ r = .resumed)
    (hstarts : ∀ t, .start t ∉ regions)
    (hcode : σ₁.code = (σ.push regions).code) (hcurrent : σ₁.current = σ.current)
    (hpolicy : σ₁.policy = σ.policy) (hidleThread : σ₁.idleThread = σ.idleThread)
    (hnext : σ₁.nextThread = σ.nextThread)
    (hfifo : σ₁.fifoReadyList = σ.fifoReadyList) (hprio : σ₁.priorityQueue = σ.priorityQueue)
    (hstatus : ∀ t, σ₁.status t = σ.status t)
    (hwaiting : ∀ s, σ₁.waiters s = σ.waiters s ∨ σ₁.waiters s = σ.waiters s ++ [σ.current] ∧
      regions.head? = some (.down s))
    (hsleeping : σ₁.sleepingList = σ.sleepingList ∨
      σ₁.sleepingList.Perm (σ.current :: σ.sleepingList) ∧ regions.head? = some .slept) :
    Placed σ₁.block := by
  have hpush := h.push hidle hstarts
  have hhead : ∀ r, regions.head? = some r → (σ₁.code σ.current).head? = some r := fun r hr => by
    rw [hcode]
    show ((σ.setCode σ.current (regions ++ σ.code σ.current)).code σ.current).head? = some r
    simp [Machine.setCode, List.head?_append, hr]
  have hother : ∀ t, t ≠ σ.current → σ₁.code t = σ.code t := fun t ht => by
    rw [hcode]
    simp [Machine.push, Machine.setCode, ht]
  have hblocked : ∀ t, (σ₁.setStatus σ₁.current .blocked).status t =
      if t = σ.current then .blocked else σ.status t := fun t => by
    rw [status_setStatus, hcurrent, hstatus]
  have hlisted : Listed (σ₁.setStatus σ₁.current .blocked) none :=
    h.listed.block hpolicy hidleThread hfifo hprio hblocked hother
      (fun s => (hwaiting s).imp id fun hw => ⟨hw.1, hhead _ hw.2⟩)
      (hsleeping.imp id fun hs => ⟨hs.1, hhead _ hs.2⟩)
  refine Placed.dispatch hlisted (hpush.coded.same hidleThread hnext hcode fun t ht => .inr ?_)
  have hne : t ≠ σ.current := hpush.ne_current_of_dormant ht
  refine dormant_congr ht hidleThread (by rw [← hcode]; rfl) ?_
  rw [hblocked, if_neg hne]
  rfl

/-- `sema_down` and `thread_block`. -/
theorem Placed.wait {σ : Machine} (h : Placed σ) (hidle : σ.current ≠ σ.idleThread)
    (s : SemaId) : Placed (σ.wait s) := by
  refine h.block [.down s] (fun hc => absurd hc hidle) (by simp) rfl rfl rfl rfl rfl
    rfl rfl (fun _ => rfl) (fun s' => ?_) (.inl rfl)
  rcases Classical.em (s' = s) with rfl | hs
  · refine .inr ⟨?_, rfl⟩
    simp [Machine.waiters, Machine.setSema, Machine.push, Machine.setCode]
  · refine .inl ?_
    simp [Machine.waiters, Machine.setSema, Machine.push, Machine.setCode, hs]

/-- `timer_sleep` and `thread_block`. -/
theorem Placed.sleepBlock {σ : Machine} (h : Placed σ) (hidle : σ.current ≠ σ.idleThread) :
    Placed σ.sleepBlock :=
  h.block [.slept] (fun hc => absurd hc hidle) (by simp) rfl rfl rfl rfl rfl
    rfl rfl (fun _ => rfl) (fun _ => .inl rfl) (.inr ⟨listInsertOrdered_perm _ _ _, rfl⟩)

/-- `thread_block` alone. -/
theorem Placed.blockAlone {σ : Machine} (h : Placed σ) : Placed (σ.push [.resumed]).block :=
  h.block [.resumed] (fun _ => by simp) (by simp) rfl rfl rfl rfl rfl
    rfl rfl (fun _ => rfl) (fun _ => .inl rfl) (.inl rfl)

/-- A thread with something to go on with has been handed to the scheduler. -/
theorem Coded.born {σ : Machine} (h : Coded σ) {t : ThreadId} {r : Region}
    (ht : (σ.code t).head? = some r) : ¬σ.Unborn t := by
  intro hunborn
  rw [(h.unborn t hunborn).2.1] at ht
  cases ht

/-- Waiters leave a semaphore. -/
theorem Placed.setSema {σ : Machine} (h : Placed σ) {s : SemaId} {sema : Semaphore}
    (hmem : ∀ t ∈ sema.waiters, t ∈ σ.waiters s) (hnodup : sema.waiters.Nodup) :
    Placed (σ.setSema s sema) := by
  have hwaiters : ∀ s', (σ.setSema s sema).waiters s' =
      if s' = s then sema.waiters else σ.waiters s' := fun s' => by
    unfold Machine.waiters Machine.setSema
    rcases Classical.em (s' = s) with rfl | hs
    · simp
    · simp [hs]
  refine ⟨⟨h.listed.implemented, h.listed.running, h.listed.ready, h.listed.nodup, h.listed.other,
    fun s' t ht => ?_, fun s' => ?_, h.listed.sleeping, h.listed.sleepingNodup⟩,
    h.coded.same rfl rfl rfl fun t ht => .inr ht⟩
  · rw [hwaiters] at ht
    split at ht
    · rename_i hs
      exact hs ▸ h.listed.waiting s t (hmem t ht)
    · exact h.listed.waiting s' t ht
  · rw [hwaiters]
    split
    · exact hnodup
    · exact h.listed.waitingNodup s'

/-- What `sema_up` does, with everything in place before its `thread_yield`. -/
theorem Placed.semaUp_cases {σ σ' : Machine} (h : Placed σ) {intrContext : Bool} {s : SemaId}
    (hrun : (semaUp intrContext s).run σ = some ((), σ')) :
    ∃ unblocked sema, (σ.semas s).up intrContext σ.eff = some (unblocked, sema) ∧
      Placed (σ.setSema s sema) ∧ ((unblocked = none ∧ σ' = σ.setSema s sema) ∨
        ∃ t, unblocked = some t ∧ t ∈ σ.waiters s ∧ σ.status t = .blocked ∧
          Placed ((σ.setSema s sema).unblock t) ∧
          σ' = if intrContext = false ∧ σ.eff σ.current < σ.eff t
            then ((σ.setSema s sema).unblock t).yield else (σ.setSema s sema).unblock t) := by
  obtain ⟨unblocked, sema, hup, hcases⟩ := Threads.semaUp_cases h.listed.implemented hrun
  obtain ⟨-, hperm, -⟩ := Semaphore.up_cases hup
  have hnodup : (unblocked.toList ++ sema.waiters).Nodup :=
    hperm.symm.nodup (h.listed.waitingNodup s)
  have hset : Placed (σ.setSema s sema) :=
    h.setSema (fun t ht => hperm.mem_iff.1 (List.mem_append_right _ ht))
      (List.nodup_append.1 hnodup).2.1
  refine ⟨unblocked, sema, hup, hset, hcases.imp id ?_⟩
  rintro ⟨t, rfl, hblocked, hσ'⟩
  have hmem : t ∈ σ.waiters s := hperm.mem_iff.1 List.mem_cons_self
  have hhead := (h.listed.waiting s t hmem).2
  refine ⟨t, rfl, hmem, hblocked, ?_, hσ'⟩
  refine hset.unblock (fun heq => h.coded.idle_not_waiting h.listed s (heq ▸ hmem)) hblocked
    (hset.coded.born hhead) (fun s' ht => ?_) fun ht => ?_
  · have hother := (hset.listed.waiting s' t ht).2.symm.trans hhead
    obtain rfl : s' = s := by
      injection hother with hother
      injection hother
    have ht : t ∈ sema.waiters := by
      simpa [Machine.waiters, Machine.setSema] using ht
    exact (List.nodup_cons.1 hnodup).1 ht
  · have hother := (h.listed.sleeping t ht).2.symm.trans hhead
    cases hother

/-- `sema_up`. -/
theorem Placed.semaUp {σ σ' : Machine} (h : Placed σ) {intrContext : Bool} {s : SemaId}
    (hrun : (Threads.semaUp intrContext s).run σ = some ((), σ')) : Placed σ' := by
  obtain ⟨_, _, -, hset, ⟨-, rfl⟩ | ⟨t, -, -, -, hunblock, rfl⟩⟩ := h.semaUp_cases hrun
  · exact hset
  · split
    · exact hunblock.yield
    · exact hunblock

/-- Woken sleepers, one after the other: what each unblocking keeps. -/
theorem Placed.unblockAll_rule {I : Machine → Prop}
    (hI : ∀ σ t, Placed σ → I σ → σ.status t = .blocked → I (σ.unblock t))
    {ts : List ThreadId} {σ : Machine} (h : Placed σ) (hσ : I σ) (hts : ts.Nodup)
    (hready : ∀ t ∈ ts, t ≠ σ.idleThread ∧ σ.status t = .blocked ∧
      (σ.code t).head? = some .slept ∧ t ∉ σ.sleepingList) :
    Placed (ts.foldl Machine.unblock σ) ∧ I (ts.foldl Machine.unblock σ) := by
  induction ts generalizing σ with
  | nil => exact ⟨h, hσ⟩
  | cons t ts ih =>
    obtain ⟨hidle, hblocked, hhead, hsleeping⟩ := hready t List.mem_cons_self
    have hwaiting : ∀ s, t ∉ σ.waiters s := fun s ht => by
      have hother := (h.listed.waiting s t ht).2.symm.trans hhead
      cases hother
    refine ih (h.unblock hidle hblocked (h.coded.born hhead) hwaiting hsleeping)
      (hI σ t h hσ hblocked) (List.nodup_cons.1 hts).2 fun u hu => ?_
    have hut : u ≠ t := fun heq => (List.nodup_cons.1 hts).1 (heq ▸ hu)
    obtain ⟨hidle', hblocked', hhead', hsleeping'⟩ := hready u (List.mem_cons_of_mem t hu)
    refine ⟨hidle', ?_, hhead', hsleeping'⟩
    rw [Machine.unblock, status_setStatus, if_neg hut, status_enqueue]
    exact hblocked'

/-- What `timer_interrupt` does, with everything in place before its
`thread_yield`, and what its unblockings keep. -/
theorem Placed.timerTick_rule {I : Machine → Prop}
    (hI : ∀ σ t, Placed σ → I σ → σ.status t = .blocked → I (σ.unblock t))
    {σ σ' : Machine} (h : Placed σ) (hσ : I (σ.advance σ.wake.2))
    (hrun : Threads.timerTick.run σ = some ((), σ')) :
    ∃ σ₁, Placed σ₁ ∧ I σ₁ ∧
      σ' = if σ₁.Preempts then σ₁.countTick.yield else σ₁.countTick := by
  obtain ⟨σ₁, hfold, hcases⟩ := timerTick_cases h.listed.implemented hrun
  have happend : σ.wake.1 ++ σ.wake.2 = σ.sleepingList := wakeSleepers_append _ _ _
  have hnodup : (σ.wake.1 ++ σ.wake.2).Nodup := happend ▸ h.listed.sleepingNodup
  have hmem : ∀ t, t ∈ σ.wake.1 ∨ t ∈ σ.wake.2 → t ∈ σ.sleepingList := fun t ht => by
    rw [← happend]
    exact List.mem_append.2 ht
  have hadvance : Placed (σ.advance σ.wake.2) :=
    ⟨⟨h.listed.implemented, h.listed.running, h.listed.ready, h.listed.nodup, h.listed.other,
      h.listed.waiting, h.listed.waitingNodup,
      fun t ht => h.listed.sleeping t (hmem t (.inr ht)), (List.nodup_append.1 hnodup).2.1⟩,
      h.coded.same rfl rfl rfl fun t ht => .inr ht⟩
  obtain ⟨hwoken, hkept⟩ := hadvance.unblockAll_rule hI hσ (List.nodup_append.1 hnodup).1
    fun t ht => by
      have hsleeping := h.listed.sleeping t (hmem t (.inl ht))
      refine ⟨fun heq => ?_, hsleeping.1, hsleeping.2, fun ht' => ?_⟩
      · exact h.coded.idle_not_sleeping h.listed
          (show σ.idleThread ∈ σ.sleepingList from heq ▸ hmem t (.inl ht))
      · exact (List.nodup_append.1 hnodup).2.2 t ht t ht' rfl
  exact ⟨σ₁, hfold ▸ hwoken, hfold ▸ hkept, hcases⟩

theorem Placed.countTick {σ : Machine} (h : Placed σ) : Placed σ.countTick :=
  h.same ⟨rfl, rfl, rfl, rfl, rfl, fun _ => rfl, fun _ => rfl, rfl⟩ rfl rfl

/-- `timer_interrupt`. -/
theorem Placed.timerTick {σ σ' : Machine} (h : Placed σ)
    (hrun : Threads.timerTick.run σ = some ((), σ')) : Placed σ' := by
  obtain ⟨σ₁, hwoken, -, rfl⟩ := h.timerTick_rule (I := fun _ => True)
    (fun _ _ _ _ _ => trivial) trivial hrun
  split
  · exact hwoken.countTick.yield
  · exact hwoken.countTick

/-- `lock_acquire` up to its `sema_down`. -/
theorem Placed.lockAcquire {σ σ' : Machine} (h : Placed σ) (hidle : σ.current ≠ σ.idleThread)
    {l : LockId} (hsparing : (σ.donateTo l).Sparing σ.current)
    (hrun : (lockAcquire l).run σ = some ((), σ')) : Placed σ' := by
  obtain ⟨-, σ₁, hdonate, rfl⟩ := lockAcquire_cases hrun
  have hsame : SameLists σ (σ.donateTo l) :=
    ⟨rfl, rfl, rfl, rfl, rfl, fun _ => rfl, fun t => by
      rw [Machine.donateTo, status_setThread]
      split
      · rename_i ht
        rw [ht]
        rfl
      · rfl, rfl⟩
  have hto : Placed (σ.donateTo l) := h.same hsame rfl rfl
  have hdonated : Placed σ₁ ∧ σ₁.current = σ.current ∧ σ₁.idleThread = σ.idleThread := by
    rcases hdonate with ⟨-, rfl⟩ | ⟨-, hloop⟩
    · exact ⟨hto, rfl, rfl⟩
    · obtain ⟨hlisted, hd⟩ := hto.listed.donateLoop hsparing hloop
      refine ⟨⟨hd.current.symm ▸ hlisted, hto.coded.same hd.idleThread hd.nextThread hd.code
        fun t ht => .inr ?_⟩, hd.current, hd.idleThread⟩
      exact dormant_congr ht hd.idleThread (by rw [hd.code]) (hd.status t)
  obtain ⟨hplaced, hcurrent, hidleThread⟩ := hdonated
  refine hplaced.push (fun hc => absurd ?_ hidle) (by simp)
  rw [← hcurrent, ← hidleThread, hc]

theorem sameLists_setThread {σ : Machine} {t : ThreadId} {f : Thread → Thread}
    (hf : (f (σ.threads t)).status = (σ.threads t).status) : SameLists σ (σ.setThread t f) :=
  ⟨rfl, rfl, rfl, rfl, rfl, fun _ => rfl, fun u => by
    rw [status_setThread]
    split
    · rename_i hut
      rw [hut]
      exact hf
    · rfl, rfl⟩

/-- `lock_release` before its `sema_up`. -/
theorem sameLists_release (σ : Machine) (l : LockId) : SameLists σ (σ.release l) := by
  have hdrop : SameLists σ (σ.drop l) :=
    let h := sameLists_setThread (σ := σ) (t := σ.current)
      (f := fun th => { th with donatedLocks := th.donatedLocks.erase l }) rfl
    ⟨rfl, rfl, rfl, rfl, rfl, fun _ => rfl, h.status, rfl⟩
  have heff := sameLists_setEff (σ.drop l) σ.current ((σ.drop l).maxPriority σ.current)
  exact ⟨rfl, rfl, rfl, rfl, rfl, fun _ => rfl,
    fun t => (heff.status t).trans (hdrop.status t), rfl⟩

theorem sameLists_take (σ : Machine) (l : LockId) : SameLists σ (σ.take l) :=
  let h := sameLists_setThread (σ := σ) (t := σ.current)
    (f := fun th => { th with donatedTo := none, donatedLocks := th.donatedLocks ++ [l] }) rfl
  ⟨rfl, rfl, rfl, rfl, rfl, fun _ => rfl, h.status, rfl⟩

/-- `thread_create` up to `allocate_tid`. -/
theorem Placed.create {σ : Machine} (h : Placed σ) (hidle : σ.current ≠ σ.idleThread)
    (priority : ℤ) : Placed (σ.create priority) := by
  obtain ⟨hblocked, hcode, hnew⟩ := h.coded.unborn σ.nextThread (.inl le_rfl)
  have hcur : σ.current ≠ σ.nextThread := fun heq => by
    rw [← heq, (h.listed.running _).2 rfl] at hblocked
    cases hblocked
  have hstatus : ∀ t, (σ.create priority).status t = σ.status t := fun t => by
    show ((Function.update σ.threads σ.nextThread (initThread priority)) t).status = _
    rcases Classical.em (t = σ.nextThread) with rfl | ht
    · rw [Function.update_self]
      exact hblocked.symm
    · rw [Function.update_of_ne ht]
      rfl
  have hother : ∀ t, t ≠ σ.current → (σ.create priority).code t = σ.code t := fun t ht => by
    rcases Classical.em (t = σ.nextThread) with rfl | htn
    · simp [Machine.create, Machine.push, Machine.setCode, ht, hcode]
    · simp [Machine.create, Machine.push, Machine.setCode, ht, htn]
  have hself : (σ.create priority).code σ.current =
      .acquire tidLock :: .release tidLock :: .start σ.nextThread :: σ.code σ.current := by
    simp [Machine.create, Machine.push, Machine.setCode, hcur]
  have hold : ∀ c t, .start t ∈ (σ.create priority).code c →
      .start t ∈ σ.code c ∨ c = σ.current ∧ t = σ.nextThread := fun c t ht => by
    rcases Classical.em (c = σ.current) with rfl | hc
    · rw [hself] at ht
      simp only [List.mem_cons, reduceCtorEq, Region.start.injEq, false_or] at ht
      rcases ht with rfl | ht
      · exact .inr ⟨rfl, rfl⟩
      · exact .inl ht
    · rw [hother c hc] at ht
      exact .inl ht
  have hdormant : ∀ t, σ.Dormant t → (σ.create priority).Dormant t := fun t ht =>
    dormant_congr ht rfl (hother t (h.ne_current_of_dormant ht)) (hstatus t)
  refine ⟨⟨h.listed.implemented, fun t => ?_, fun t => ?_, h.listed.nodup, h.listed.other,
    fun s t ht => ?_, h.listed.waitingNodup, fun t ht => ?_, h.listed.sleepingNodup⟩,
    fun r hr => ?_, fun t ht => hdormant t (h.coded.unborn t ?_), fun c t ht => ?_,
    fun c c' t ht ht' => ?_, fun c t => ?_⟩
  · rw [hstatus]
    exact h.listed.running t
  · rw [hstatus]
    exact h.listed.ready t
  · have hwaiting := h.listed.waiting s t ht
    have hne : t ≠ σ.current := fun heq => by
      rw [heq, (h.listed.running _).2 rfl] at hwaiting
      cases hwaiting.1
    rw [hstatus, hother t hne]
    exact hwaiting
  · have hsleeping := h.listed.sleeping t ht
    have hne : t ≠ σ.current := fun heq => by
      rw [heq, (h.listed.running _).2 rfl] at hsleeping
      cases hsleeping.1
    rw [hstatus, hother t hne]
    exact hsleeping
  · rw [show (σ.create priority).idleThread = σ.idleThread from rfl,
      hother _ (Ne.symm hidle)] at hr
    exact h.coded.idle r hr
  · rcases ht with ht | ⟨c, ht⟩
    · exact .inl (Nat.le_of_succ_le ht)
    · rcases hold c t ht with ht | ⟨-, rfl⟩
      · exact .inr ⟨c, ht⟩
      · exact .inl le_rfl
  · show t < σ.nextThread + 1
    rcases hold c t ht with ht | ⟨-, rfl⟩
    · exact Nat.lt_succ_of_lt (h.coded.lt c t ht)
    · exact Nat.lt_succ_self _
  · rcases hold c t ht with ht | ⟨rfl, rfl⟩ <;> rcases hold c' _ ht' with ht' | ⟨rfl, heq⟩
    · exact h.coded.starter c c' t ht ht'
    · exact absurd (h.coded.lt c t ht) (heq ▸ lt_irrefl _)
    · exact absurd (h.coded.lt c' _ ht') (lt_irrefl _)
    · rfl
  · rcases Classical.em (c = σ.current) with rfl | hc
    · rw [hself]
      rcases Classical.em (t = σ.nextThread) with rfl | ht
      · have hzero : (σ.code σ.current).count (.start σ.nextThread) = 0 :=
          List.count_eq_zero_of_not_mem fun hmem => lt_irrefl _ (h.coded.lt _ _ hmem)
        simp [hzero]
      · simpa [List.count_cons, Ne.symm ht] using h.coded.once σ.current t
    · rw [hother c hc]
      exact h.coded.once c t

/-- `thread_unblock` in `thread_create`: the thread is unborn until now. -/
theorem Placed.start {σ : Machine} (h : Placed σ) {t : ThreadId} {rest : List Region}
    (hcode : σ.code σ.current = .start t :: rest) :
    Placed ((σ.setCode σ.current rest).unblock t) := by
  have hstart : .start t ∈ σ.code σ.current := hcode ▸ List.mem_cons_self
  obtain ⟨hblocked, hnil, hidle⟩ := h.coded.unborn t (.inr ⟨_, hstart⟩)
  have hcount := h.coded.once σ.current t
  rw [hcode, List.count_cons_self] at hcount
  have hrest : .start t ∉ rest := fun hmem => by
    have := List.count_pos_iff.2 hmem
    omega
  have hpop : Placed (σ.setCode σ.current rest) := h.pop hcode
  have hne : t ≠ σ.current := h.ne_current_of_dormant ⟨hblocked, hnil, hidle⟩
  have hnil' : (σ.setCode σ.current rest).code t = [] := by
    simp [Machine.setCode, hne, hnil]
  refine hpop.unblock hidle hblocked ?_ (fun s ht => ?_) fun ht => ?_
  · rintro (hfresh | ⟨c, hc⟩)
    · exact absurd (h.coded.lt _ t hstart) (not_lt.2 hfresh)
    · rcases Classical.em (c = σ.current) with rfl | hcc
      · exact hrest (by simpa [Machine.setCode] using hc)
      · have hc' : .start t ∈ σ.code c := by simpa [Machine.setCode, hcc] using hc
        exact hcc (h.coded.starter c _ t hc' hstart)
  · have hhead := (hpop.listed.waiting s t ht).2
    rw [hnil'] at hhead
    cases hhead
  · have hhead := (hpop.listed.sleeping t ht).2
    rw [hnil'] at hhead
    cases hhead

/-- A step raises no ready thread, unless the policy is `SCHED_PRIO`. -/
def Sparing (σ : Machine) (e : Event) : Prop :=
  ∀ l, e = .run (.acquire l) → (σ.donateTo l).Sparing σ.current

/-- **Every region keeps the lists in place.** -/
theorem Placed.execute {σ σ' : Machine} (h : Placed σ) {r : Region} {rest : List Region}
    (hcode : σ.code σ.current = r :: rest) (hmay : σ.MayRun r) (hsparing : Sparing σ (.run r))
    (hrun : (execute r).run (σ.setCode σ.current rest) = some ((), σ')) : Placed σ' := by
  have hpop : Placed (σ.setCode σ.current rest) := h.pop hcode
  have hidle : r ≠ .block → r ≠ .resumed → σ.current ≠ σ.idleThread := h.current_ne_idle hcode
  have himpl := hpop.listed.implemented
  have hdone : ∀ {σ₁ : Machine}, some ((), σ₁) = some ((), σ') → σ' = σ₁ := fun heq =>
    (Prod.mk.inj (Option.some.inj heq)).2.symm
  generalize hτ : σ.setCode σ.current rest = τ at *
  have hcurrent : τ.current = σ.current := by rw [← hτ]; rfl
  have hidleThread : τ.idleThread = σ.idleThread := by rw [← hτ]; rfl
  cases r with
  | create priority =>
    have hne := hidle (by simp) (by simp)
    rcases threadCreate_cases hrun with rfl | ⟨-, -, rfl⟩
    · exact hpop.same ⟨rfl, rfl, rfl, rfl, rfl, fun _ => rfl, fun _ => rfl, rfl⟩ rfl rfl
    · exact hpop.create (by rwa [hcurrent, hidleThread]) priority
  | start t =>
    obtain ⟨-, rfl⟩ := threadStart_cases himpl hrun
    refine Placed.push (hτ ▸ h.start hcode) (fun hc => ?_) (by simp)
    exact absurd (hcurrent ▸ hidleThread ▸ hc) (hidle (by simp) (by simp))
  | yieldTo t =>
    rw [hdone ((yieldTo_run himpl t).symm.trans hrun)]
    split
    · exact hpop.yield
    · exact hpop
  | yield => exact hdone ((threadYield_run himpl).symm.trans hrun) ▸ hpop.yield
  | setPriority p =>
    rw [hdone hrun]
    exact hpop.same (sameLists_setThread rfl) rfl rfl
  | setEffective p =>
    rw [hdone hrun]
    exact hpop.same (sameLists_setEff τ τ.current p) rfl rfl
  | updatePriority =>
    have hstatus : (τ.threads τ.current).status ≠ .ready := by
      rw [show (τ.threads τ.current).status = .running from (hpop.listed.running _).2 rfl]
      simp
    rw [hdone ((updatePriority_run hstatus).symm.trans hrun)]
    exact hpop.same (sameLists_setEff τ τ.current _) rfl rfl
  | down s =>
    rcases semaDownTurn_cases himpl hrun with ⟨-, rfl⟩ | ⟨-, rfl⟩
    · exact hpop.wait (by rw [hcurrent, hidleThread]; exact hidle (by simp) (by simp)) s
    · exact hpop.setSema (fun _ ht => ht) (hpop.listed.waitingNodup s)
  | tryDown s =>
    rw [hdone hrun]
    have hwaiters : (τ.semas s).tryDown.1.waiters = τ.waiters s := by
      unfold Semaphore.tryDown
      split <;> rfl
    exact hpop.setSema (fun t ht => hwaiters ▸ ht) (hwaiters ▸ hpop.listed.waitingNodup s)
  | up s => exact hpop.semaUp hrun
  | acquire l =>
    refine hpop.lockAcquire (by rw [hcurrent, hidleThread]; exact hidle (by simp) (by simp))
      ?_ hrun
    rw [← hτ]
    refine (hsparing l rfl).imp id fun hall u hu => hall u (hu.mono fun _ _ hw he => ⟨hw, he⟩)
  | take l =>
    rw [hdone hrun]
    exact hpop.same (sameLists_take τ l) rfl rfl
  | release l =>
    obtain ⟨-, hup⟩ := lockRelease_cases ((hpop.listed.running _).2 rfl) hrun
    exact (hpop.same (sameLists_release τ l) rfl rfl).semaUp hup
  | sleep ticks =>
    rw [hdone ((sleepUntil_run τ ticks).symm.trans hrun)]
    split
    · refine Placed.push (hpop.same (sameLists_setThread rfl) rfl rfl) (fun hc => ?_) (by simp)
      exact absurd (hcurrent ▸ hidleThread ▸ hc) (hidle (by simp) (by simp))
    · exact hpop
  | sleepInsert =>
    rw [hdone ((sleepInsert_run himpl).symm.trans hrun)]
    exact hpop.sleepBlock (by rw [hcurrent, hidleThread]; exact hidle (by simp) (by simp))
  | slept => exact hdone hrun ▸ hpop
  | block =>
    rw [hdone ((threadBlock_run (σ := τ.push [.resumed]) himpl).symm.trans hrun)]
    exact hpop.blockAlone
  | resumed => exact hdone hrun ▸ hpop
  | unblock t =>
    obtain ⟨hblocked, rfl⟩ := threadUnblock_cases himpl hrun
    obtain ⟨hne, rest', hcode'⟩ := hmay t rfl
    have htc : t ≠ σ.current := fun heq => by
      rw [heq, ← hcurrent, show (τ.threads τ.current).status = .running from
        (hpop.listed.running _).2 rfl] at hblocked
      cases hblocked
    have hhead : (τ.code t).head? = some .resumed := by
      rw [← hτ]
      simp [Machine.setCode, htc, hcode']
    refine hpop.unblock (hidleThread ▸ hne) hblocked (hpop.coded.born hhead) (fun s ht => ?_)
      fun ht => ?_
    · have hother := (hpop.listed.waiting s t ht).2.symm.trans hhead
      cases hother
    · have hother := (hpop.listed.sleeping t ht).2.symm.trans hhead
      cases hother

/-! ### The policy stays -/

theorem yield_policy (σ : Machine) : σ.yield.policy = σ.policy := suspend_policy σ

theorem semaUp_policy {σ σ' : Machine} (h : σ.policy.Implemented) {intrContext : Bool} {s : SemaId}
    (hrun : (semaUp intrContext s).run σ = some ((), σ')) : σ'.policy = σ.policy := by
  obtain ⟨unblocked, sema, -, ⟨-, rfl⟩ | ⟨t, -, -, rfl⟩⟩ := semaUp_cases h hrun
  · rfl
  · split
    · exact yield_policy _
    · rfl

theorem donateLoop_policy {fuel : ℕ} {t : ThreadId} {σ σ' : Machine}
    (hrun : (donateLoop fuel t).run σ = some ((), σ')) : σ'.policy = σ.policy := by
  obtain ⟨-, hpolicy, -⟩ := donateLoop_rule (p := σ.eff t) (I := fun _ τ => τ.policy = σ.policy)
    (fun τ curr next hI _ _ _ _ => (donated_raise τ next (σ.eff t)).policy.trans hI) hrun rfl rfl
  exact hpolicy

theorem timerTick_policy {σ σ' : Machine} (h : σ.policy.Implemented)
    (hrun : timerTick.run σ = some ((), σ')) : σ'.policy = σ.policy := by
  obtain ⟨σ₁, hfold, hcases⟩ := timerTick_cases h hrun
  have hpolicy : σ₁.policy = σ.policy := by
    rw [hfold, foldl_unblock_policy]
    rfl
  rw [hcases]
  split
  · exact (yield_policy σ₁.countTick).trans hpolicy
  · exact hpolicy

/-- No region changes the policy. -/
theorem execute_policy {σ σ' : Machine} (h : σ.policy.Implemented)
    (hcurrent : σ.status σ.current = .running) {r : Region}
    (hrun : (execute r).run σ = some ((), σ')) : σ'.policy = σ.policy := by
  have hdone : ∀ {σ₁ : Machine}, some ((), σ₁) = some ((), σ') → σ' = σ₁ := fun heq =>
    (Prod.mk.inj (Option.some.inj heq)).2.symm
  cases r with
  | create priority => rcases threadCreate_cases hrun with rfl | ⟨-, -, rfl⟩ <;> rfl
  | start t =>
    obtain ⟨-, rfl⟩ := threadStart_cases h hrun
    rfl
  | yieldTo t =>
    rw [hdone ((yieldTo_run h t).symm.trans hrun)]
    split
    · exact yield_policy σ
    · rfl
  | yield => exact hdone ((threadYield_run h).symm.trans hrun) ▸ yield_policy σ
  | down s => rcases semaDownTurn_cases h hrun with ⟨-, rfl⟩ | ⟨-, rfl⟩ <;> rfl
  | up s => exact semaUp_policy h hrun
  | acquire l =>
    obtain ⟨-, σ₁, ⟨-, rfl⟩ | ⟨-, hloop⟩, rfl⟩ := lockAcquire_cases hrun
    · rfl
    · have hpolicy : σ₁.policy = (σ.donateTo l).policy := donateLoop_policy hloop
      exact hpolicy
  | release l =>
    obtain ⟨-, hup⟩ := lockRelease_cases hcurrent hrun
    exact semaUp_policy (σ := σ.release l) h hup
  | sleep ticks =>
    rw [hdone ((sleepUntil_run σ ticks).symm.trans hrun)]
    split <;> rfl
  | sleepInsert => rw [hdone ((sleepInsert_run h).symm.trans hrun)]; rfl
  | block => rw [hdone ((threadBlock_run (σ := σ.push [.resumed]) h).symm.trans hrun)]; rfl
  | unblock t => rw [(threadUnblock_cases h hrun).2]; rfl
  | updatePriority =>
    have hstatus : (σ.threads σ.current).status ≠ .ready := by
      rw [show (σ.threads σ.current).status = .running from hcurrent]
      simp
    rw [hdone ((updatePriority_run hstatus).symm.trans hrun)]
    rfl
  | setPriority p | setEffective p | tryDown s | take l | slept | resumed =>
    cases hrun
    rfl

/-! ### Runs -/

theorem Placed.call {σ : Machine} (h : Placed σ) {c : Call} (hmay : σ.MayCall c) :
    Placed (σ.setCode σ.current c.regions) := by
  refine h.setCode (fun hc => ?_) fun t => ?_
  · rw [hmay hc]
    simp [Call.regions]
  · have hzero : c.regions.count (.start t) = 0 :=
      List.count_eq_zero_of_not_mem (by cases c <;> simp [Call.regions])
    rw [hzero]
    exact Nat.zero_le _

theorem Placed.step {σ σ' : Machine} {e : Event} (h : Placed σ) (hsparing : Sparing σ e)
    (hs : MachineStep σ e σ') : Placed σ' ∧ σ'.policy = σ.policy := by
  cases hs with
  | call c _ hmay => exact ⟨h.call hmay, rfl⟩
  | run r rest hcode hmay hrun =>
    exact ⟨h.execute hcode hmay hsparing hrun, execute_policy (σ := σ.setCode σ.current rest)
      h.listed.implemented ((h.listed.running _).2 rfl) hrun⟩
  | tick _ hrun => exact ⟨h.timerTick hrun, timerTick_policy h.listed.implemented hrun⟩
  | deviceUp n _ hrun => exact ⟨h.semaUp hrun, semaUp_policy h.listed.implemented hrun⟩

/-- After boot every thread is where its status says. -/
theorem placed_boot {policy : SchedPolicy} (h : policy.Implemented) (values : ℕ → UInt32)
    (memory : ℕ → Bool) : Placed (boot policy values memory) := by
  have hstatus : ∀ t, (boot policy values memory).status t =
      if t = 0 then .running else if t = 1 then .ready else .blocked := fun t => by
    unfold Machine.status boot
    dsimp only
    split
    · rfl
    · split <;> rfl
  have hwaiters : ∀ s, (boot policy values memory).waiters s = [] := fun s => by
    cases s <;> rfl
  have hready : (boot policy values memory).readyList = [] := by
    unfold Machine.readyList boot
    split <;> rfl
  have hother : (boot policy values memory).otherList = [] := by
    unfold Machine.otherList boot
    split <;> rfl
  refine ⟨⟨h, fun t => ?_, fun t => ?_, hready ▸ List.nodup_nil, hother, fun s t ht => ?_,
    fun s => hwaiters s ▸ List.nodup_nil, fun t ht => absurd ht List.not_mem_nil,
    List.nodup_nil⟩, fun r hr => absurd hr List.not_mem_nil, fun t ht => ?_,
    fun c t ht => absurd ht List.not_mem_nil, fun c c' t ht => absurd ht List.not_mem_nil,
    fun c t => Nat.zero_le _⟩
  · rw [hstatus]
    show _ ↔ some 0 = some t
    split
    · rename_i ht
      simp [ht]
    · rename_i ht
      split <;> simp [Ne.symm ht]
  · rw [hready, hstatus]
    show _ ↔ _ ∧ t ≠ 1
    split
    · simp
    · split
      · rename_i ht
        simp [ht]
      · simp
  · rw [hwaiters] at ht
    cases ht
  · rcases ht with ht | ⟨c, ht⟩
    · have hlt : 1 < (t : ℕ) := ht
      have hidle : t ≠ 1 := Nat.ne_of_gt hlt
      refine ⟨?_, rfl, hidle⟩
      rw [hstatus, if_neg (Nat.ne_of_gt (Nat.lt_of_le_of_lt (Nat.zero_le 1) hlt)), if_neg hidle]
    · cases ht

/-- Runs of an implemented policy that raise no ready thread, or of `SCHED_PRIO`. -/
theorem Reached.placed {policy : SchedPolicy} {ok : Machine → Event → Prop} {σ : Machine}
    (h : Reached policy ok σ) (hpolicy : policy = .prio ∨
      policy = .fifo ∧ ∀ σ e, ok σ e → Sparing σ e) : Placed σ ∧ σ.policy = policy := by
  induction h with
  | boot values memory =>
    exact ⟨placed_boot (hpolicy.elim .inr fun h => .inl h.1) values memory, rfl⟩
  | @step σ σ' e _ hok hs ih =>
    have hsparing : Sparing σ e := by
      rcases hpolicy with hprio | ⟨-, hall⟩
      · exact fun l _ => .inl (ih.2.trans hprio)
      · exact hall σ e hok
    obtain ⟨hplaced, heq⟩ := ih.1.step hsparing hs
    exact ⟨hplaced, heq.trans ih.2⟩

/-! ### No runnable thread is lost -/

/-- Every ready thread but `idle` is in the list that `next_thread_to_run` pops,
once, and in no other; a thread that is not ready is in no ready list. -/
structure NoLostThread (σ : Machine) : Prop where
  ready : ∀ t, σ.status t = .ready → t ≠ σ.idleThread → σ.readyList.count t = 1 ∧
    t ∉ σ.otherList ∧ (∀ s, t ∉ σ.waiters s) ∧ t ∉ σ.sleepingList
  unready : ∀ t, σ.status t ≠ .ready → t ∉ σ.fifoReadyList ∧ t ∉ σ.priorityQueue

theorem not_linked {σ : Machine} {t : ThreadId} (hready : t ∉ σ.readyList)
    (hother : t ∉ σ.otherList) : t ∉ σ.fifoReadyList ∧ t ∉ σ.priorityQueue := by
  unfold Machine.readyList at hready
  unfold Machine.otherList at hother
  split at hready
  · rename_i hfifo
    rw [if_pos hfifo] at hother
    exact ⟨hready, hother⟩
  · rename_i hprio
    rw [if_neg hprio] at hother
    exact ⟨hother, hready⟩

theorem Listed.noLostThread {σ : Machine} {running : Option ThreadId} (h : Listed σ running) :
    NoLostThread σ where
  ready t ht hidle := by
    have hblocked : σ.status t ≠ .blocked := by
      rw [ht]
      simp
    refine ⟨List.count_eq_one_of_mem h.nodup ((h.ready t).2 ⟨ht, hidle⟩), ?_,
      fun s hmem => hblocked (h.waiting s t hmem).1, fun hmem => hblocked (h.sleeping t hmem).1⟩
    rw [h.other]
    exact List.not_mem_nil
  unready t ht := by
    refine not_linked (fun hmem => ht ((h.ready t).1 hmem).1) ?_
    rw [h.other]
    exact List.not_mem_nil

/-- Under `SCHED_PRIO` no runnable thread is lost in any run, and under
`SCHED_FIFO` in none in which no donation raises a ready thread. -/
theorem noLostThread_of_sparing {policy : SchedPolicy} {ok : Machine → Event → Prop} {σ : Machine}
    (hpolicy : policy = .prio ∨ policy = .fifo ∧ ∀ σ e, ok σ e → Sparing σ e)
    (h : Reached policy ok σ) : NoLostThread σ :=
  (h.placed hpolicy).1.listed.noLostThread

/-- No step acquires a lock that is held. -/
def acquiresFree (σ : Machine) : Event → Bool
  | .run (.acquire l) => (σ.holder l).isNone
  | _ => true

theorem sparing_of_acquiresFree {σ : Machine} {e : Event} (h : acquiresFree σ e = true) :
    Sparing σ e := by
  rintro l rfl
  have hfree : σ.holder l = none := Option.isNone_iff_eq_none.1 h
  have hnone : (σ.donateTo l).waitsOn σ.current = none := by
    simp [Machine.waitsOn, Machine.donateTo, Machine.setThread, hfree]
  refine .inr fun u hu => ?_
  cases hu with
  | head hnext _ =>
    rw [hnone] at hnext
    cases hnext
  | tail hnext _ _ =>
    rw [hnone] at hnext
    cases hnext

/-- `main` creates a thread of priority 10; it acquires lock 1 and yields. -/
def holderReady : List Event :=
  [.call (.create 10), .run (.create 10), .run (.acquire tidLock), .run (.down (.lock tidLock)),
    .run (.take tidLock), .run (.release tidLock), .run (.start 2), .run (.yieldTo 2),
    .call .yield, .run .yield,
    .call (.lockAcquire 1), .run (.acquire 1), .run (.down (.lock 1)), .run (.take 1),
    .call .yield, .run .yield]

/-- The ready thread 2 is where the scheduler finds it. -/
theorem noLostThread_holderReady : ∃ σ, Reached .fifo (fun σ e => acquiresFree σ e = true) σ ∧
    σ.status 2 = .ready ∧ NoLostThread σ := by
  have hrun : (((boot .fifo (fun _ => 0) (fun _ => true)).afterAll acquiresFree
      holderReady).map fun σ => σ.status 2) = some .ready := by decide +kernel
  obtain ⟨σ, hσ, hready⟩ := Option.map_eq_some_iff.1 hrun
  have hreached := (Reached.boot (fun _ => 0) (fun _ => true)).afterAll (fun _ _ _ h => h) hσ
  exact ⟨σ, hreached, hready,
    noLostThread_of_sparing (.inr ⟨rfl, fun _ _ => sparing_of_acquiresFree⟩) hreached⟩

/-- Under `SCHED_FIFO` a thread can be lost: `main` acquires lock 1 next, which
puts the ready holder into `priority_queue`. -/
theorem not_noLostThread : ¬∀ σ, Reached .fifo (fun _ _ => True) σ → NoLostThread σ := by
  intro hall
  have hrun : (((boot .fifo (fun _ => 0) (fun _ => true)).afterAll (fun _ _ => true)
      (holderReady ++ [.call (.lockAcquire 1), .run (.acquire 1)])).map fun σ =>
        (σ.status 2, σ.idleThread, σ.readyList, σ.priorityQueue)) =
      some (.ready, 1, [], [2]) := by decide +kernel
  obtain ⟨σ, hσ, heq⟩ := Option.map_eq_some_iff.1 hrun
  have hboot : Reached .fifo (fun _ _ => True) (boot .fifo (fun _ => 0) fun _ => true) :=
    .boot _ _
  have hreached := hboot.afterAll (fun _ _ _ _ => trivial) hσ
  have hstatus : σ.status 2 = .ready := congrArg Prod.fst heq
  have hidle : σ.idleThread = 1 := congrArg (fun r => r.2.1) heq
  have hlist : σ.readyList = [] := congrArg (fun r => r.2.2.1) heq
  have hcount := ((hall σ hreached).ready 2 hstatus (by simp [hidle])).1
  rw [hlist] at hcount
  cases hcount

end Threads
end CS162

/-
# The priority ready queue

`projects1-3/src/threads/thread.c`, lines 248-307, 376-416 and 548-554.

Under `SCHED_PRIO` a thread's effective priority only changes where it runs,
where it is blocked, or together with an insertion of it into `priority_queue`.
So the queue stays in order of priority, and threads whose priority has stayed
what it was at their `thread_enqueue` stay in the order of these calls
(`QueueOrdered.step`).  The thread that `schedule` takes is the one to run before
all other ready threads (`priorityQueue_ordered`).

`idle` is in no list.  It has the lowest priority there is for `thread_create`,
but `thread_set_priority` takes any number (`not_popped_max`).
-/

import CS162.Threads.Queues

namespace CS162
namespace Threads

open CS162.Basis CS162.Lib

/-- The thread has the priority it had at its last `thread_enqueue`. -/
def Machine.Unchanged (σ : Machine) (t : ThreadId) : Prop := σ.enqueuedEff t = σ.eff t

/-- `t` is to run before `u`. -/
def Machine.Before (σ : Machine) (t u : ThreadId) : Prop :=
  σ.eff u ≤ σ.eff t ∧ (σ.eff u = σ.eff t → σ.Unchanged t → σ.Unchanged u →
    σ.enqueuedAt t < σ.enqueuedAt u)

/-- The priority queue and what keeps it ordered. -/
structure QueueOrdered (σ : Machine) : Prop where
  ordered : σ.priorityQueue.Pairwise σ.Before
  stamped : ∀ t ∈ σ.priorityQueue, σ.enqueuedAt t < σ.enqueues
  raised : ∀ t ∈ σ.priorityQueue, σ.enqueuedEff t ≤ σ.eff t
  idle : σ.eff σ.idleThread = priMin
  holders : ∀ l, σ.holder l ≠ some σ.idleThread

/-- The running thread is to run before the ready ones. -/
def Machine.Chosen (σ : Machine) : Prop :=
  ∀ u, σ.status u = .ready → u ≠ σ.idleThread → σ.Before σ.current u

/-- From `σ` to `σ'` the queue stays ordered, and if `schedule` has been called
it has taken the thread to run before the others. -/
structure QueueKept (σ σ' : Machine) : Prop where
  queue : QueueOrdered σ'
  popped : σ'.switches = σ.switches ∨ σ'.Chosen

theorem QueueOrdered.kept {σ σ' : Machine} (h : QueueOrdered σ')
    (hswitches : σ'.switches = σ.switches) : QueueKept σ σ' := ⟨h, .inl hswitches⟩

theorem QueueKept.of_chosen {σ σ' : Machine} (h : QueueOrdered σ' ∧ σ'.Chosen) : QueueKept σ σ' :=
  ⟨h.1, .inr h.2⟩

/-! ### What changes the queue -/

/-- Ordered insertion, of a thread that was enqueued last or has been raised. -/
theorem pairwise_before_insert {σ : Machine} {t : ThreadId} {l : List ThreadId}
    (h : l.Pairwise σ.Before)
    (hlast : ∀ b ∈ l, σ.Unchanged b → σ.Unchanged t → σ.enqueuedAt b < σ.enqueuedAt t) :
    (listInsertOrdered (threadPriorityComparator σ.eff) t l).Pairwise σ.Before := by
  have hless : ∀ a b, threadPriorityComparator σ.eff a b = true ↔ σ.eff b < σ.eff a :=
    fun a b => decide_eq_true_iff
  refine pairwise_listInsertOrdered h (fun b hb hfalse => ?_) (fun b _ htrue => ?_)
    fun b _ c _ htrue hbc => ?_
  · have hle : σ.eff t ≤ σ.eff b := not_lt.1 (decide_eq_false_iff_not.1 hfalse)
    exact ⟨hle, fun _ => hlast b hb⟩
  · have hlt := (hless t b).1 htrue
    exact ⟨hlt.le, fun heq => absurd heq hlt.ne⟩
  · have hlt := hbc.1.trans_lt ((hless t b).1 htrue)
    exact ⟨hlt.le, fun heq => absurd heq hlt.ne⟩

/-- Machines that do not differ in what `QueueOrdered` speaks of. -/
structure SameQueue (σ σ' : Machine) : Prop where
  priorityQueue : σ'.priorityQueue = σ.priorityQueue
  idleThread : σ'.idleThread = σ.idleThread
  eff : ∀ t, t ∈ σ.priorityQueue ∨ t = σ.idleThread → σ'.eff t = σ.eff t
  holder : ∀ l, σ'.holder l = σ.holder l ∨ σ'.holder l ≠ some σ.idleThread
  enqueues : σ'.enqueues = σ.enqueues
  enqueuedAt : σ'.enqueuedAt = σ.enqueuedAt
  enqueuedEff : σ'.enqueuedEff = σ.enqueuedEff

theorem QueueOrdered.congr {σ σ' : Machine} (h : QueueOrdered σ) (hsame : SameQueue σ σ') :
    QueueOrdered σ' := by
  refine ⟨?_, fun t ht => ?_, fun t ht => ?_, ?_, fun l => ?_⟩
  · rw [hsame.priorityQueue]
    refine h.ordered.imp_of_mem fun {t u} ht hu hbefore => ?_
    unfold Machine.Before Machine.Unchanged
    rw [hsame.eff t (.inl ht), hsame.eff u (.inl hu), hsame.enqueuedAt, hsame.enqueuedEff]
    exact hbefore
  · rw [hsame.priorityQueue] at ht
    rw [hsame.enqueuedAt, hsame.enqueues]
    exact h.stamped t ht
  · rw [hsame.priorityQueue] at ht
    rw [hsame.enqueuedEff, hsame.eff t (.inl ht)]
    exact h.raised t ht
  · rw [hsame.idleThread, hsame.eff _ (.inr rfl)]
    exact h.idle
  · rw [hsame.idleThread]
    rcases hsame.holder l with heq | hne
    · exact heq.symm ▸ h.holders l
    · exact hne

/-- A change to the running thread's priorities does not reach the queue. -/
theorem sameQueue_of_eff {σ σ' : Machine} {t : ThreadId} (ht : t ∉ σ.priorityQueue)
    (hidle : t ≠ σ.idleThread) (heff : ∀ u, u ≠ t → σ'.eff u = σ.eff u)
    (hqueue : σ'.priorityQueue = σ.priorityQueue) (hidle' : σ'.idleThread = σ.idleThread)
    (hholder : ∀ l, σ'.holder l = σ.holder l ∨ σ'.holder l ≠ some σ.idleThread)
    (henqueues : σ'.enqueues = σ.enqueues) (hat : σ'.enqueuedAt = σ.enqueuedAt)
    (hat' : σ'.enqueuedEff = σ.enqueuedEff) : SameQueue σ σ' :=
  ⟨hqueue, hidle', fun u hu => heff u fun hut => by
    rcases hu with hu | hu
    · exact ht (hut ▸ hu)
    · exact hidle (hut.symm.trans hu), hholder, henqueues, hat, hat'⟩

theorem eff_setStatus (σ : Machine) (t u : ThreadId) (status : ThreadStatus) :
    (σ.setStatus t status).eff u = σ.eff u := eff_setThread_of_eq rfl u

theorem sameQueue_setStatus (σ : Machine) (t : ThreadId) (status : ThreadStatus) :
    SameQueue σ (σ.setStatus t status) :=
  ⟨rfl, rfl, fun u _ => eff_setStatus σ t u status, fun _ => .inl rfl, rfl, rfl, rfl⟩

/-- `thread_enqueue`. -/
theorem QueueOrdered.enqueue {σ : Machine} (h : QueueOrdered σ) (hprio : σ.policy = .prio)
    {t : ThreadId} (ht : t ∉ σ.priorityQueue) : QueueOrdered (σ.enqueue t) := by
  have hqueue : (σ.enqueue t).priorityQueue =
      listInsertOrdered (threadPriorityComparator σ.eff) t σ.priorityQueue := by
    show (if σ.policy = .fifo then _ else _) = _
    rw [if_neg (by simp [hprio])]
  have hself : (σ.enqueue t).enqueuedAt t = σ.enqueues ∧ (σ.enqueue t).enqueuedEff t = σ.eff t := by
    simp [Machine.enqueue]
  have hother : ∀ u, u ≠ t → (σ.enqueue t).enqueuedAt u = σ.enqueuedAt u ∧
      (σ.enqueue t).enqueuedEff u = σ.enqueuedEff u := fun u hu => by
    simp [Machine.enqueue, hu]
  have hne : ∀ u ∈ σ.priorityQueue, u ≠ t := fun u hu hut => ht (hut ▸ hu)
  refine ⟨?_, fun u hu => ?_, fun u hu => ?_, h.idle, h.holders⟩
  · rw [hqueue]
    refine pairwise_before_insert (σ := σ.enqueue t) ?_ fun b hb _ _ => ?_
    · refine h.ordered.imp_of_mem fun {a b} ha hb hbefore => ?_
      unfold Machine.Before Machine.Unchanged
      rw [(hother a (hne a ha)).1, (hother a (hne a ha)).2, (hother b (hne b hb)).1,
        (hother b (hne b hb)).2]
      exact hbefore
    · rw [(hother b (hne b hb)).1, hself.1]
      exact h.stamped b hb
  · show _ < σ.enqueues + 1
    rcases mem_listInsertOrdered.1 (hqueue ▸ hu) with rfl | hu
    · rw [hself.1]
      exact Nat.lt_succ_self _
    · rw [(hother u (hne u hu)).1]
      exact Nat.lt_succ_of_lt (h.stamped u hu)
  · show _ ≤ σ.eff u
    rcases mem_listInsertOrdered.1 (hqueue ▸ hu) with rfl | hu
    · exact hself.2.le
    · rw [(hother u (hne u hu)).2]
      exact h.raised u hu

/-- `thread_unblock`. -/
theorem QueueOrdered.unblock {σ : Machine} (h : QueueOrdered σ) (hprio : σ.policy = .prio)
    {t : ThreadId} (ht : t ∉ σ.priorityQueue) : QueueOrdered (σ.unblock t) :=
  (h.enqueue hprio ht).congr (sameQueue_setStatus _ t .ready)

theorem Listed.mem_priorityQueue {σ : Machine} {running : Option ThreadId} (h : Listed σ running)
    (hprio : σ.policy = .prio) (t : ThreadId) :
    t ∈ σ.priorityQueue ↔ σ.status t = .ready ∧ t ≠ σ.idleThread := by
  have hready := h.ready t
  unfold Machine.readyList at hready
  rwa [if_neg (by simp [hprio])] at hready

theorem Listed.not_mem_priorityQueue {σ : Machine} {running : Option ThreadId}
    (h : Listed σ running) (hprio : σ.policy = .prio) {t : ThreadId} (ht : σ.status t ≠ .ready) :
    t ∉ σ.priorityQueue := fun hmem => ht ((h.mem_priorityQueue hprio t).1 hmem).1

/-- A turn of `recurse_donate`. -/
theorem QueueOrdered.raise {σ : Machine} {running : Option ThreadId} (h : QueueOrdered σ)
    (hlisted : Listed σ running) (hprio : σ.policy = .prio) {t : ThreadId} {p : ℤ}
    (ht : t ≠ σ.idleThread) (hlt : σ.eff t < p) : QueueOrdered (σ.raise t p) := by
  have heff : ∀ u, u ≠ t → (σ.setEff t p).eff u = σ.eff u := fun u hu => by
    rw [Machine.setEff, eff_setThread, if_neg hu]
  unfold Machine.raise
  split
  · rename_i hready
    have hnodup : σ.priorityQueue.Nodup := by
      have hnodup := hlisted.nodup
      unfold Machine.readyList at hnodup
      rwa [if_neg (by simp [hprio])] at hnodup
    have hmem : t ∈ σ.priorityQueue := (hlisted.mem_priorityQueue hprio t).2 ⟨hready, ht⟩
    have hne : ∀ u ∈ σ.priorityQueue.erase t, u ≠ t := fun u hu =>
      ((List.Nodup.mem_erase_iff hnodup).1 hu).1
    have hold : ∀ u ∈ σ.priorityQueue.erase t, u ∈ σ.priorityQueue := fun u hu =>
      List.mem_of_mem_erase hu
    have hself : (σ.setEff t p).eff t = p := by simp [Machine.setEff]
    refine ⟨pairwise_before_insert (σ := (σ.setEff t p).requeue t) ?_ fun b _ _ hun => ?_,
      fun u hu => ?_, fun u hu => ?_, ?_, h.holders⟩
    · refine (h.ordered.sublist List.erase_sublist).imp_of_mem fun {a b} ha hb hbefore => ?_
      show (σ.setEff t p).Before a b
      unfold Machine.Before Machine.Unchanged
      rw [heff a (hne a ha), heff b (hne b hb)]
      exact hbefore
    -- its priority is higher than it was when it was enqueued
    · have hp : σ.enqueuedEff t = p := Eq.trans hun hself
      exact absurd ((h.raised t hmem).trans_lt hlt) (hp ▸ lt_irrefl p)
    · rcases mem_listInsertOrdered.1 hu with rfl | hu
      · exact h.stamped u hmem
      · exact h.stamped u (hold u hu)
    · show σ.enqueuedEff u ≤ (σ.setEff t p).eff u
      rcases mem_listInsertOrdered.1 hu with rfl | hu
      · rw [hself]
        exact (h.raised u hmem).trans hlt.le
      · rw [heff u (hne u hu)]
        exact h.raised u (hold u hu)
    · exact (heff _ (Ne.symm ht)).trans h.idle
  · rename_i hready
    exact h.congr (sameQueue_of_eff (hlisted.not_mem_priorityQueue hprio hready) ht heff rfl rfl
      (fun _ => .inl rfl) rfl rfl rfl)

/-- **`schedule` takes the thread to run before the others.** -/
theorem QueueOrdered.dispatch {σ : Machine} (h : QueueOrdered σ) (hprio : σ.policy = .prio)
    (hplaced : Placed σ.dispatch) : QueueOrdered σ.dispatch ∧ σ.dispatch.Chosen := by
  have hqueue : σ.dispatch.priorityQueue = σ.priorityQueue.tail := by
    show (if σ.policy = .fifo then _ else _) = _
    rw [if_neg (by simp [hprio])]
  have hsub : ∀ t ∈ σ.priorityQueue.tail, t ∈ σ.priorityQueue := fun t ht => List.mem_of_mem_tail ht
  have heff : ∀ u, σ.dispatch.eff u = σ.eff u := fun u => eff_setStatus σ σ.next u .running
  have hbefore : ∀ t u, σ.dispatch.Before t u ↔ σ.Before t u := fun t u => by
    unfold Machine.Before Machine.Unchanged
    rw [heff, heff]
    rfl
  refine ⟨⟨?_, fun t ht => ?_, fun t ht => ?_, (heff _).trans h.idle, h.holders⟩,
    fun u hready hidle => ?_⟩
  · rw [hqueue]
    exact h.ordered.tail.imp fun {t u} htu => (hbefore t u).2 htu
  · exact h.stamped t (hsub t (hqueue ▸ ht))
  · rw [heff]
    exact h.raised t (hsub t (hqueue ▸ ht))
  · have hmem := (hplaced.listed.mem_priorityQueue hprio u).2 ⟨hready, hidle⟩
    rw [hqueue] at hmem
    have hordered := h.ordered
    rw [hbefore]
    cases hlist : σ.priorityQueue with
    | nil =>
      rw [hlist] at hmem
      cases hmem
    | cons t queue =>
      rw [hlist] at hmem hordered
      have hnext : σ.dispatch.current = t := by
        show σ.readyList.head?.getD σ.idleThread = t
        unfold Machine.readyList
        rw [if_neg (by simp [hprio]), hlist]
        rfl
      rw [hnext]
      exact (List.pairwise_cons.1 hordered).1 u hmem

theorem QueueOrdered.setCode {σ : Machine} (h : QueueOrdered σ) (t : ThreadId)
    (code : List Region) : QueueOrdered (σ.setCode t code) :=
  h.congr ⟨rfl, rfl, fun _ _ => rfl, fun _ => .inl rfl, rfl, rfl, rfl⟩

theorem QueueOrdered.setSema {σ : Machine} (h : QueueOrdered σ) (s : SemaId) (sema : Semaphore) :
    QueueOrdered (σ.setSema s sema) :=
  h.congr ⟨rfl, rfl, fun _ _ => rfl, fun _ => .inl rfl, rfl, rfl, rfl⟩

theorem Placed.current_not_mem {σ : Machine} (h : Placed σ) (hprio : σ.policy = .prio) :
    σ.current ∉ σ.priorityQueue :=
  h.listed.not_mem_priorityQueue hprio (by simp [(h.listed.running σ.current).2 rfl])

/-! ### What a step does to the queue -/

/-- `thread_yield`. -/
theorem QueueOrdered.yield {σ : Machine} (h : QueueOrdered σ) (hplaced : Placed σ)
    (hprio : σ.policy = .prio) : QueueOrdered σ.yield ∧ σ.yield.Chosen := by
  have hsuspend : QueueOrdered σ.suspend := by
    unfold Machine.suspend
    split
    · exact h.congr (sameQueue_setStatus σ σ.current .ready)
    · exact h.unblock hprio (hplaced.current_not_mem hprio)
  exact hsuspend.dispatch ((suspend_policy σ).trans hprio) hplaced.yield

/-- `thread_block`. -/
theorem QueueOrdered.block {σ : Machine} (h : QueueOrdered σ) (hprio : σ.policy = .prio)
    (hplaced : Placed σ.block) : QueueOrdered σ.block ∧ σ.block.Chosen :=
  (h.congr (sameQueue_setStatus σ σ.current .blocked)).dispatch hprio hplaced

/-- `sema_up`. -/
theorem QueueOrdered.semaUp {σ σ' : Machine} (h : QueueOrdered σ) (hplaced : Placed σ)
    (hprio : σ.policy = .prio) {intrContext : Bool} {s : SemaId}
    (hrun : (Threads.semaUp intrContext s).run σ = some ((), σ')) : QueueKept σ σ' := by
  obtain ⟨_, sema, -, -, ⟨-, rfl⟩ | ⟨t, -, -, hblocked, hunblocked, rfl⟩⟩ :=
    hplaced.semaUp_cases hrun
  · exact (h.setSema s sema).kept rfl
  · have hunblock := (h.setSema s sema).unblock hprio
      (hplaced.listed.not_mem_priorityQueue hprio (t := t) (by simp [hblocked]))
    split
    · exact .of_chosen (hunblock.yield hunblocked hprio)
    · exact hunblock.kept rfl

/-- `timer_interrupt`. -/
theorem QueueOrdered.timerTick {σ σ' : Machine} (h : QueueOrdered σ) (hplaced : Placed σ)
    (hprio : σ.policy = .prio) (hrun : Threads.timerTick.run σ = some ((), σ')) :
    QueueKept σ σ' := by
  obtain ⟨σ₁, hplaced₁, ⟨hqueue, hpolicy, hswitches⟩, rfl⟩ := hplaced.timerTick_rule
    (I := fun τ => QueueOrdered τ ∧ τ.policy = .prio ∧ τ.switches = σ.switches)
    (fun τ t hτ hI hblocked => ⟨hI.1.unblock hI.2.1
      (hτ.listed.not_mem_priorityQueue hI.2.1 (by simp [hblocked])), hI.2⟩)
    ⟨h.congr ⟨rfl, rfl, fun _ _ => rfl, fun _ => .inl rfl, rfl, rfl, rfl⟩, hprio, rfl⟩ hrun
  have hcount : QueueOrdered σ₁.countTick :=
    hqueue.congr ⟨rfl, rfl, fun _ _ => rfl, fun _ => .inl rfl, rfl, rfl, rfl⟩
  split
  · exact .of_chosen (hcount.yield hplaced₁.countTick hpolicy)
  · exact hcount.kept hswitches

/-- The loop of `recurse_donate`. -/
theorem QueueOrdered.donateLoop {σ σ' : Machine} {fuel : ℕ} {t : ThreadId}
    {running : Option ThreadId} (h : QueueOrdered σ) (hlisted : Listed σ running)
    (hprio : σ.policy = .prio)
    (hrun : (Threads.donateLoop fuel t).run σ = some ((), σ')) :
    QueueOrdered σ' ∧ σ'.switches = σ.switches := by
  obtain ⟨-, ⟨hqueue, -, -, hswitches⟩, -⟩ := donateLoop_rule (p := σ.eff t)
    (I := fun _ τ => QueueOrdered τ ∧ Listed τ running ∧ τ.policy = .prio ∧
      τ.switches = σ.switches)
    (fun τ curr next hI _ hnext hlt hlinked => by
      obtain ⟨hqueue, hlisted, hpolicy, hswitches⟩ := hI
      have hne : next ≠ τ.idleThread := by
        rintro rfl
        obtain ⟨l, -, hheld⟩ := Option.bind_eq_some_iff.1 hnext
        exact hqueue.holders l hheld
      refine ⟨hqueue.raise hlisted hpolicy hne hlt, hlisted.raise (.inl hpolicy) hlinked,
        (donated_raise τ next _).policy.trans hpolicy, ?_⟩
      rw [← hswitches]
      unfold Machine.raise
      split <;> rfl)
    hrun rfl ⟨h, hlisted, hprio, rfl⟩
  exact ⟨hqueue, hswitches⟩

/-- `lock_acquire` up to its `sema_down`. -/
theorem QueueOrdered.lockAcquire {σ σ' : Machine} (h : QueueOrdered σ) (hplaced : Placed σ)
    (hprio : σ.policy = .prio) {l : LockId}
    (hrun : (Threads.lockAcquire l).run σ = some ((), σ')) : QueueKept σ σ' := by
  obtain ⟨-, σ₁, hdonate, rfl⟩ := lockAcquire_cases hrun
  have heff : ∀ u, (σ.donateTo l).eff u = σ.eff u := eff_setThread_of_eq rfl
  have hto : QueueOrdered (σ.donateTo l) :=
    h.congr ⟨rfl, rfl, fun u _ => heff u, fun _ => .inl rfl, rfl, rfl, rfl⟩
  rcases hdonate with ⟨-, rfl⟩ | ⟨-, hloop⟩
  · exact (hto.setCode _ _).kept rfl
  · have hlisted := hplaced.listed.congr (sameLists_setThread (t := σ.current)
      (f := fun th => { th with donatedTo := some l }) rfl)
    obtain ⟨hqueue, hswitches⟩ := hto.donateLoop hlisted hprio hloop
    exact (hqueue.setCode _ _).kept hswitches

/-- `lock_release` before its `sema_up`. -/
theorem QueueOrdered.release {σ : Machine} (h : QueueOrdered σ) (hplaced : Placed σ)
    (hprio : σ.policy = .prio) (hidle : σ.current ≠ σ.idleThread) (l : LockId) :
    QueueOrdered (σ.release l) := by
  refine h.congr (sameQueue_of_eff (hplaced.current_not_mem hprio) hidle (fun u hu => ?_) rfl rfl
    (fun l' => ?_) rfl rfl rfl)
  · rw [eff_release, if_neg hu]
  · rcases Classical.em (l' = l) with rfl | hl
    · exact .inr (by simp [Machine.release, Machine.drop, Machine.setEff, Machine.setThread])
    · exact .inl (by simp [Machine.release, Machine.drop, Machine.setEff, Machine.setThread, hl])

/-- **Every region keeps the queue ordered.** -/
theorem QueueOrdered.execute {σ σ' : Machine} (h : QueueOrdered σ) (hplaced : Placed σ)
    (hprio : σ.policy = .prio) {r : Region}
    (hidle : r ≠ .block → r ≠ .resumed → σ.current ≠ σ.idleThread) (hplaced' : Placed σ')
    (hrun : (Threads.execute r).run σ = some ((), σ')) : QueueKept σ σ' := by
  have himpl := hplaced.listed.implemented
  have hdone : ∀ {σ₁ : Machine}, some ((), σ₁) = some ((), σ') → σ' = σ₁ := fun heq =>
    (Prod.mk.inj (Option.some.inj heq)).2.symm
  have hcurrent : r ≠ .block → r ≠ .resumed → ∀ {τ : Machine},
      (∀ u, u ≠ σ.current → τ.eff u = σ.eff u) → τ.priorityQueue = σ.priorityQueue →
      τ.idleThread = σ.idleThread →
      (∀ l, τ.holder l = σ.holder l ∨ τ.holder l ≠ some σ.idleThread) →
      τ.enqueues = σ.enqueues → τ.enqueuedAt = σ.enqueuedAt → τ.enqueuedEff = σ.enqueuedEff →
      QueueOrdered τ := fun hblock hresumed _ heff hqueue hidle' hholder henqueues hat hat' =>
    h.congr (sameQueue_of_eff (hplaced.current_not_mem hprio) (hidle hblock hresumed) heff hqueue
      hidle' hholder henqueues hat hat')
  have hset : ∀ (f : Thread → Thread) u, u ≠ σ.current →
      (σ.setThread σ.current f).eff u = σ.eff u := fun f u hu => by
    rw [eff_setThread, if_neg hu]
  cases r with
  | create priority =>
    obtain ⟨hblocked, -, hne⟩ := hplaced.coded.unborn σ.nextThread (.inl le_rfl)
    rcases threadCreate_cases hrun with rfl | ⟨-, -, rfl⟩
    · have hrefuse : QueueOrdered σ.refuse :=
        h.congr ⟨rfl, rfl, fun _ _ => rfl, fun _ => .inl rfl, rfl, rfl, rfl⟩
      exact hrefuse.kept rfl
    · have hout := hplaced.listed.not_mem_priorityQueue hprio (t := σ.nextThread)
        (by simp [hblocked])
      have hcreate : QueueOrdered (σ.create priority) := by
        refine h.congr (sameQueue_of_eff hout hne (fun u hu => ?_) rfl rfl (fun _ => .inl rfl)
          rfl rfl rfl)
        show (Function.update σ.threads σ.nextThread (initThread priority) u).effectivePriority = _
        rw [Function.update_of_ne hu]
        rfl
      exact hcreate.kept rfl
  | start t =>
    obtain ⟨hblocked, rfl⟩ := threadStart_cases himpl hrun
    have hout := hplaced.listed.not_mem_priorityQueue hprio (t := t) (by
      rw [show σ.status t = .blocked from hblocked]
      simp)
    exact ((h.unblock hprio hout).setCode _ _).kept rfl
  | yieldTo t =>
    rw [hdone ((yieldTo_run himpl t).symm.trans hrun)]
    split
    · exact .of_chosen (h.yield hplaced hprio)
    · exact h.kept rfl
  | yield =>
    rw [hdone ((threadYield_run himpl).symm.trans hrun)]
    exact .of_chosen (h.yield hplaced hprio)
  | setPriority p =>
    rw [hdone hrun]
    exact (hcurrent (by simp) (by simp) (hset _) rfl rfl (fun _ => .inl rfl) rfl rfl rfl).kept rfl
  | setEffective p =>
    rw [hdone hrun]
    exact (hcurrent (by simp) (by simp) (hset _) rfl rfl (fun _ => .inl rfl) rfl rfl rfl).kept rfl
  | updatePriority =>
    have hstatus : (σ.threads σ.current).status ≠ .ready := by
      rw [show (σ.threads σ.current).status = .running from (hplaced.listed.running _).2 rfl]
      simp
    rw [hdone ((updatePriority_run hstatus).symm.trans hrun)]
    exact (hcurrent (by simp) (by simp) (hset _) rfl rfl (fun _ => .inl rfl) rfl rfl rfl).kept rfl
  | down s =>
    rcases semaDownTurn_cases himpl hrun with ⟨-, rfl⟩ | ⟨-, rfl⟩
    · exact .of_chosen (((h.setSema s _).setCode _ _).block hprio hplaced')
    · exact (h.setSema s _).kept rfl
  | tryDown s =>
    rw [hdone hrun]
    exact (h.setSema s _).kept rfl
  | up s => exact h.semaUp hplaced hprio hrun
  | acquire l => exact h.lockAcquire hplaced hprio hrun
  | take l =>
    rw [hdone hrun]
    have htake : QueueOrdered (σ.take l) := by
      refine hcurrent (by simp) (by simp) (hset fun th =>
        { th with donatedTo := none, donatedLocks := th.donatedLocks ++ [l] }) rfl rfl
        (fun l' => ?_) rfl rfl rfl
      have hne := hidle (by simp) (by simp)
      rcases Classical.em (l' = l) with rfl | hl
      · exact .inr (by simp [Machine.take, hne])
      · exact .inl (by simp [Machine.take, hl, Machine.setThread])
    exact htake.kept rfl
  | release l =>
    obtain ⟨-, hup⟩ := lockRelease_cases ((hplaced.listed.running _).2 rfl) hrun
    have hrelease := h.release hplaced hprio (hidle (by simp) (by simp)) l
    obtain ⟨hqueue, hpopped⟩ :=
      hrelease.semaUp (hplaced.same (sameLists_release σ l) rfl rfl) hprio hup
    exact ⟨hqueue, hpopped⟩
  | sleep ticks =>
    rw [hdone ((sleepUntil_run σ ticks).symm.trans hrun)]
    split
    · have hwake := hcurrent (by simp) (by simp) (hset fun th =>
        { th with wakeTime := wrap64 (σ.ticks + ticks) }) rfl rfl (fun _ => .inl rfl) rfl rfl rfl
      exact (hwake.setCode _ _).kept rfl
    · exact h.kept rfl
  | sleepInsert =>
    rw [hdone ((sleepInsert_run himpl).symm.trans hrun)] at hplaced' ⊢
    have hsleeping : ∀ sleepers, QueueOrdered { σ with sleepingList := sleepers } := fun _ =>
      h.congr ⟨rfl, rfl, fun _ _ => rfl, fun _ => .inl rfl, rfl, rfl, rfl⟩
    exact .of_chosen (QueueOrdered.block ((hsleeping _).setCode _ _) hprio hplaced')
  | slept =>
    rw [hdone hrun]
    exact h.kept rfl
  | block =>
    rw [hdone ((threadBlock_run (σ := σ.push [.resumed]) himpl).symm.trans hrun)] at hplaced' ⊢
    exact .of_chosen ((h.setCode _ _).block hprio hplaced')
  | resumed =>
    rw [hdone hrun]
    exact h.kept rfl
  | unblock t =>
    obtain ⟨hblocked, rfl⟩ := threadUnblock_cases himpl hrun
    have hout := hplaced.listed.not_mem_priorityQueue hprio (t := t) (by
      rw [show σ.status t = .blocked from hblocked]
      simp)
    exact (h.unblock hprio hout).kept rfl

theorem QueueOrdered.step {σ σ' : Machine} {e : Event} (h : QueueOrdered σ) (hplaced : Placed σ)
    (hprio : σ.policy = .prio) (hplaced' : Placed σ') (hs : MachineStep σ e σ') :
    QueueKept σ σ' := by
  cases hs with
  | call c _ _ => exact (h.setCode _ _).kept rfl
  | run r rest hcode _ hrun =>
    obtain ⟨hqueue, hpopped⟩ := (h.setCode σ.current rest).execute (hplaced.pop hcode) hprio
      (hplaced.current_ne_idle hcode) hplaced' hrun
    exact ⟨hqueue, hpopped⟩
  | tick _ hrun => exact h.timerTick hplaced hprio hrun
  | deviceUp n _ hrun => exact h.semaUp hplaced hprio hrun

/-! ### Runs -/

theorem queueOrdered_boot (values : ℕ → UInt32) (memory : ℕ → Bool) :
    QueueOrdered (boot .prio values memory) :=
  ⟨List.Pairwise.nil, fun _ ht => (List.not_mem_nil ht).elim,
    fun _ ht => (List.not_mem_nil ht).elim, rfl, fun _ hl => nomatch hl⟩

theorem Reached.queueOrdered {ok : Machine → Event → Prop} {σ : Machine}
    (h : Reached .prio ok σ) : Placed σ ∧ σ.policy = .prio ∧ QueueOrdered σ := by
  obtain ⟨hplaced, hprio⟩ := h.placed (.inl rfl)
  refine ⟨hplaced, hprio, ?_⟩
  clear hplaced hprio
  induction h with
  | boot values memory => exact queueOrdered_boot values memory
  | step h hok hs ih =>
    obtain ⟨hplaced, hprio⟩ := h.placed (.inl rfl)
    exact (ih.step hplaced hprio ((h.step hok hs).placed (.inl rfl)).1 hs).queue

/-- **The priority queue is in order**, in every state reached.  Where `schedule`
is called, the thread that runs then has the highest priority of the ready
threads, `idle` only if none is below `PRI_MIN`; and of those of its priority
whose priority has not changed since they were enqueued, it is the first. -/
theorem priorityQueue_ordered {ok : Machine → Event → Prop} {σ : Machine}
    (h : Reached .prio ok σ) :
    (σ.priorityQueue.Pairwise fun t u => σ.eff u ≤ σ.eff t) ∧
      ∀ e σ', MachineStep σ e σ' → σ'.switches ≠ σ.switches → ∀ u, σ'.status u = .ready →
        (u ≠ σ'.idleThread ∨ priMin ≤ σ'.eff σ'.current → σ'.eff u ≤ σ'.eff σ'.current) ∧
        (u ≠ σ'.idleThread → σ'.eff u = σ'.eff σ'.current → σ'.Unchanged σ'.current →
          σ'.Unchanged u → σ'.enqueuedAt σ'.current < σ'.enqueuedAt u) := by
  obtain ⟨hplaced, hprio, hqueue⟩ := h.queueOrdered
  refine ⟨hqueue.ordered.imp And.left, fun e σ' hs hswitch u hready => ?_⟩
  have hplaced' := (hplaced.step (fun _ _ => .inl hprio) hs).1
  obtain ⟨hqueue', hpopped⟩ := hqueue.step hplaced hprio hplaced' hs
  have hchosen := hpopped.resolve_left hswitch u hready
  refine ⟨fun hu => ?_, fun hu => (hchosen hu).2⟩
  rcases Classical.em (u = σ'.idleThread) with rfl | hne
  · rw [hqueue'.idle]
    exact hu.resolve_left fun hne => hne rfl
  · exact (hchosen hne).1

/-- `main` creates a thread of priority 40, up to the end of `thread_create`. -/
def higherCreated : List Event :=
  [.call (.create 40), .run (.create 40), .run (.acquire tidLock), .run (.down (.lock tidLock)),
    .run (.take tidLock), .run (.release tidLock), .run (.start 2)]

/-- `main`, which becomes ready in this step, is not above the thread that is chosen. -/
theorem priorityQueue_ordered_yieldTo : ∃ σ σ', Reached .prio (fun _ _ => True) σ ∧
    MachineStep σ (.run (.yieldTo 2)) σ' ∧ σ'.current = 2 ∧ σ'.status 0 = .ready ∧
      σ'.eff 0 ≤ σ'.eff 2 := by
  have hrun : (((boot .prio (fun _ => 0) (fun _ => true)).afterAll (fun _ _ => true)
      higherCreated).bind fun σ => (σ.after (.run (.yieldTo 2))).map fun σ' =>
        (σ.switches, σ'.switches, σ'.current, σ'.idleThread, σ'.status 0)) =
      some (0, 1, 2, 1, .ready) := by decide +kernel
  obtain ⟨σ, hσ, hafter⟩ := Option.bind_eq_some_iff.1 hrun
  obtain ⟨σ', hσ', heq⟩ := Option.map_eq_some_iff.1 hafter
  simp only [Prod.mk.injEq] at heq
  obtain ⟨hbefore, hswitches, hcurrent, hidle, hready⟩ := heq
  have hboot : Reached .prio (fun _ _ => True) (boot .prio (fun _ => 0) fun _ => true) :=
    .boot _ _
  have hreached := hboot.afterAll (fun _ _ _ _ => trivial) hσ
  have hs := Machine.after_step hσ'
  refine ⟨σ, σ', hreached, hs, hcurrent, hready, ?_⟩
  have hmax := (priorityQueue_ordered hreached).2 _ σ' hs (by simp [hbefore, hswitches]) 0 hready
  exact hcurrent ▸ hmax.1 (.inl (by simp [hidle]))

/-- The thread popped need not have the highest priority of all ready threads:
`main` sets its priority to -1 and yields, and `idle` is ready. -/
theorem not_popped_max : ¬∀ σ e σ', Reached .prio (fun _ _ => True) σ → MachineStep σ e σ' →
    σ'.switches ≠ σ.switches → ∀ u, σ'.status u = .ready → σ'.eff u ≤ σ'.eff σ'.current := by
  intro hall
  have hrun : (((boot .prio (fun _ => 0) (fun _ => true)).afterAll (fun _ _ => true)
      [.call (.setPriority (-1)), .run (.setPriority (-1)), .run (.setEffective (-1)),
        .run .updatePriority, .call .yield]).bind fun σ => (σ.after (.run .yield)).map fun σ' =>
        (σ.switches, σ'.switches, σ'.status 1, σ'.eff 1, σ'.eff σ'.current)) =
      some (0, 1, .ready, 0, -1) := by decide +kernel
  obtain ⟨σ, hσ, hafter⟩ := Option.bind_eq_some_iff.1 hrun
  obtain ⟨σ', hσ', heq⟩ := Option.map_eq_some_iff.1 hafter
  simp only [Prod.mk.injEq] at heq
  obtain ⟨hbefore, hswitches, hready, hidle, hcurrent⟩ := heq
  have hboot : Reached .prio (fun _ _ => True) (boot .prio (fun _ => 0) fun _ => true) :=
    .boot _ _
  have hreached := hboot.afterAll (fun _ _ _ _ => trivial) hσ
  have hle := hall σ _ σ' hreached (Machine.after_step hσ') (by simp [hbefore, hswitches]) 1 hready
  rw [hidle, hcurrent] at hle
  exact absurd hle (by decide)

end Threads
end CS162

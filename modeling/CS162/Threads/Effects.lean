/-
# What the scheduling functions do

The functions of `CS162.Threads.Thread` that put a thread on a ready list, take
one off it and switch to it either panic or have one result.  It is given here
as an operation on the machine: `enqueue`, `unblock`, `dispatch`, `yield` and
`block`.
-/

import CS162.Threads.Thread

namespace CS162
namespace Threads

open CS162.Basis CS162.Lib

/-- The policy is one that `thread_enqueue` implements. -/
def SchedPolicy.Implemented (policy : SchedPolicy) : Prop := policy = .fifo ∨ policy = .prio

/-- The list `next_thread_to_run` pops. -/
def Machine.readyList (σ : Machine) : List ThreadId :=
  if σ.policy = .fifo then σ.fifoReadyList else σ.priorityQueue

/-- The ready list of the other policy. -/
def Machine.otherList (σ : Machine) : List ThreadId :=
  if σ.policy = .fifo then σ.priorityQueue else σ.fifoReadyList

/-- `t` goes to its place in the ready list. -/
def Machine.enqueue (σ : Machine) (t : ThreadId) : Machine :=
  { σ with
    fifoReadyList := if σ.policy = .fifo then σ.fifoReadyList ++ [t] else σ.fifoReadyList
    priorityQueue := if σ.policy = .fifo then σ.priorityQueue
      else listInsertOrdered (threadPriorityComparator σ.eff) t σ.priorityQueue
    enqueues := σ.enqueues + 1
    enqueuedAt := Function.update σ.enqueuedAt t σ.enqueues
    enqueuedEff := Function.update σ.enqueuedEff t (σ.eff t) }

/-- `t` becomes ready. -/
def Machine.unblock (σ : Machine) (t : ThreadId) : Machine := (σ.enqueue t).setStatus t .ready

/-- The thread that runs next. -/
def Machine.next (σ : Machine) : ThreadId := σ.readyList.head?.getD σ.idleThread

/-- The next thread runs. -/
def Machine.dispatch (σ : Machine) : Machine :=
  { σ.setStatus σ.next .running with
    fifoReadyList := if σ.policy = .fifo then σ.fifoReadyList.tail else σ.fifoReadyList
    priorityQueue := if σ.policy = .fifo then σ.priorityQueue else σ.priorityQueue.tail
    current := σ.next
    threadTicks := 0
    switches := σ.switches + 1 }

/-- The running thread becomes ready; `idle` goes on no list. -/
def Machine.suspend (σ : Machine) : Machine :=
  (if σ.current = σ.idleThread then σ else σ.enqueue σ.current).setStatus σ.current .ready

/-- The running thread yields. -/
def Machine.yield (σ : Machine) : Machine := σ.suspend.dispatch

/-- The running thread blocks. -/
def Machine.block (σ : Machine) : Machine := (σ.setStatus σ.current .blocked).dispatch

theorem threadEnqueue_run {σ : Machine} (h : σ.policy.Implemented) (t : ThreadId) :
    (threadEnqueue t).run σ = some ((), σ.enqueue t) := by
  cases σ
  rcases h with h | h <;> cases h <;> rfl

theorem threadUnblock_run {σ : Machine} (h : σ.policy.Implemented) {t : ThreadId}
    (ht : (σ.threads t).status = .blocked) :
    (threadUnblock t).run σ = some ((), σ.unblock t) := by
  have hrun : (threadUnblock t).run σ =
      (threadEnqueue t >>= fun _ => modify fun σ => σ.setStatus t .ready).run σ := by
    unfold threadUnblock
    show (if (σ.threads t).status = .blocked then _ else halt : Sched Unit).run σ = _
    rw [if_pos ht]
  rw [hrun, run_bind_of_run (threadEnqueue_run h t)]
  rfl

/-- `thread_unblock` asserts that its thread is blocked. -/
theorem threadUnblock_cases {σ σ' : Machine} (h : σ.policy.Implemented) {t : ThreadId}
    (hrun : (threadUnblock t).run σ = some ((), σ')) :
    (σ.threads t).status = .blocked ∧ σ' = σ.unblock t := by
  rcases Classical.em ((σ.threads t).status = .blocked) with ht | ht
  · rw [threadUnblock_run h ht] at hrun
    exact ⟨ht, (Prod.mk.inj (Option.some.inj hrun)).2.symm⟩
  · have hnone : (threadUnblock t).run σ = none := by
      unfold threadUnblock
      show (if (σ.threads t).status = .blocked then _ else halt : Sched Unit).run σ = _
      rw [if_neg ht]
      rfl
    rw [hnone] at hrun
    cases hrun

theorem schedule_run {σ : Machine} (h : σ.policy.Implemented) :
    schedule.run σ = some ((), σ.dispatch) := by
  have hnext : ∃ σ₁, nextThreadToRun.run σ = some (σ.next, σ₁) ∧
      { σ₁.setStatus σ.next .running with
        current := σ.next, threadTicks := 0, switches := σ₁.switches + 1 } = σ.dispatch := by
    rcases σ with ⟨policy, threads, allList, current, idleThread, fifo, prio⟩
    rcases h with h | h <;> cases h
    · rcases fifo with _ | ⟨t, fifo⟩ <;> exact ⟨_, rfl, rfl⟩
    · rcases prio with _ | ⟨t, prio⟩ <;> exact ⟨_, rfl, rfl⟩
  obtain ⟨σ₁, hrun, heq⟩ := hnext
  rw [schedule, run_bind_of_run hrun, ← heq]
  rfl

theorem threadBlock_run {σ : Machine} (h : σ.policy.Implemented) :
    threadBlock.run σ = some ((), σ.block) := by
  rw [threadBlock, run_bind_of_run (t := σ.setStatus σ.current .blocked) rfl]
  exact schedule_run h

theorem suspend_policy (σ : Machine) : σ.suspend.policy = σ.policy := by
  unfold Machine.suspend
  split <;> rfl

theorem threadYield_run {σ : Machine} (h : σ.policy.Implemented) :
    threadYield.run σ = some ((), σ.yield) := by
  have hdispatch : schedule.run σ.suspend = some ((), σ.yield) :=
    schedule_run ((suspend_policy σ).symm ▸ h)
  rw [← hdispatch]
  show (if σ.current = σ.idleThread then _ else _ : Sched Unit).run σ = _
  unfold Machine.suspend
  split
  · rfl
  · rw [run_bind_of_run (threadEnqueue_run h σ.current)]
    rfl

/-! ### Semaphores -/

/-- Change a semaphore. -/
def Machine.setSema (σ : Machine) (s : SemaId) (sema : Semaphore) : Machine :=
  { σ with semas := Function.update σ.semas s sema }

/-- What `sema_up` does. -/
theorem semaUp_cases {σ σ' : Machine} (h : σ.policy.Implemented) {intrContext : Bool} {s : SemaId}
    (hrun : (semaUp intrContext s).run σ = some ((), σ')) :
    ∃ unblocked sema, (σ.semas s).up intrContext σ.eff = some (unblocked, sema) ∧
      ((unblocked = none ∧ σ' = σ.setSema s sema) ∨
        ∃ t, unblocked = some t ∧ (σ.threads t).status = .blocked ∧
          σ' = if intrContext = false ∧ σ.eff σ.current < σ.eff t
            then ((σ.setSema s sema).unblock t).yield else (σ.setSema s sema).unblock t) := by
  unfold semaUp at hrun
  rw [run_bind_of_run (a := σ) (t := σ) rfl] at hrun
  obtain ⟨⟨unblocked, sema⟩, hup⟩ := (σ.semas s).up_returns intrContext σ.eff
  refine ⟨unblocked, sema, hup, ?_⟩
  rw [hup] at hrun
  dsimp only at hrun
  rw [run_bind_of_run (t := σ.setSema s sema) rfl] at hrun
  cases unblocked with
  | none => exact .inl ⟨rfl, (Prod.mk.inj (Option.some.inj hrun)).2.symm⟩
  | some t =>
    refine .inr ⟨t, rfl, ?_⟩
    dsimp only at hrun
    obtain ⟨⟨⟩, σ₁, hunblock, hyield⟩ := run_bind_cases hrun
    obtain ⟨ht, rfl⟩ := threadUnblock_cases (σ := σ.setSema s sema) h hunblock
    refine ⟨ht, ?_⟩
    split at hyield
    · rename_i habove
      rw [if_pos habove]
      rw [threadYield_run (σ := (σ.setSema s sema).unblock t) h] at hyield
      exact (Prod.mk.inj (Option.some.inj hyield)).2.symm
    · rename_i hbelow
      rw [if_neg hbelow]
      exact (Prod.mk.inj (Option.some.inj hyield)).2.symm

/-- Put regions in front of what the running thread has still to run. -/
def Machine.push (σ : Machine) (regions : List Region) : Machine :=
  σ.setCode σ.current (regions ++ σ.code σ.current)

/-- The running thread queues on a semaphore and blocks. -/
def Machine.wait (σ : Machine) (s : SemaId) : Machine :=
  ((σ.setSema s { σ.semas s with waiters := (σ.semas s).waiters ++ [σ.current] }).push
    [.down s]).block

/-- What a turn of the loop of `sema_down` does. -/
theorem semaDownTurn_cases {σ σ' : Machine} (h : σ.policy.Implemented) {s : SemaId}
    (hrun : (semaDownTurn s).run σ = some ((), σ')) :
    ((σ.semas s).value = 0 ∧ σ' = σ.wait s) ∨
      ((σ.semas s).value ≠ 0 ∧
        σ' = σ.setSema s { σ.semas s with value := (σ.semas s).value - 1 }) := by
  unfold semaDownTurn at hrun
  rw [run_bind_of_run (a := σ) (t := σ) rfl] at hrun
  unfold Semaphore.downTurn at hrun
  rcases Classical.em ((σ.semas s).value = 0) with hzero | hpos
  · rw [if_pos hzero] at hrun
    refine .inl ⟨hzero, ?_⟩
    have hblock := threadBlock_run (σ := (σ.setSema s
      { σ.semas s with waiters := (σ.semas s).waiters ++ [σ.current] }).push [.down s]) h
    exact (Prod.mk.inj (Option.some.inj (hrun.symm.trans hblock))).2
  · rw [if_neg hpos] at hrun
    exact .inr ⟨hpos, (Prod.mk.inj (Option.some.inj hrun)).2.symm⟩

/-! ### Locks -/

/-- `t` is on a list that holds ready threads. -/
def Machine.Linked (σ : Machine) (t : ThreadId) : Prop :=
  t ∈ σ.fifoReadyList ∨ t ∈ σ.priorityQueue

instance (σ : Machine) (t : ThreadId) : Decidable (σ.Linked t) := inferInstanceAs (Decidable (_ ∨ _))

/-- `t` moves to its place in `priority_queue`. -/
def Machine.requeue (σ : Machine) (t : ThreadId) : Machine :=
  { σ with
    fifoReadyList := σ.fifoReadyList.erase t
    priorityQueue :=
      listInsertOrdered (threadPriorityComparator σ.eff) t (σ.priorityQueue.erase t) }

/-- One turn of `recurse_donate`: `t` gets the priority `p`. -/
def Machine.raise (σ : Machine) (t : ThreadId) (p : ℤ) : Machine :=
  if (σ.threads t).status = .ready then (σ.setEff t p).requeue t else σ.setEff t p

theorem requeue_run (σ : Machine) (t : ThreadId) :
    (requeue t).run σ = if σ.Linked t then some ((), σ.requeue t) else none := by
  unfold requeue
  show (if σ.Linked t then set (σ.requeue t) else halt : Sched Unit).run σ = _
  split <;> rfl

theorem requeue_cases {σ σ' : Machine} {t : ThreadId}
    (hrun : (requeue t).run σ = some ((), σ')) : σ.Linked t ∧ σ' = σ.requeue t := by
  rw [requeue_run] at hrun
  split at hrun
  · rename_i hlinked
    exact ⟨hlinked, (Prod.mk.inj (Option.some.inj hrun)).2.symm⟩
  · cases hrun

/-- A turn of the loop of `recurse_donate`. -/
theorem donateLoop_cases {fuel : ℕ} {curr : ThreadId} {σ σ' : Machine}
    (hrun : (donateLoop (fuel + 1) curr).run σ = some ((), σ')) :
    (σ.waitsOn curr = none ∧ σ' = σ) ∨
      ∃ next, σ.waitsOn curr = some next ∧
        ((σ.eff curr ≤ σ.eff next ∧ σ' = σ) ∨
          (σ.eff next < σ.eff curr ∧ ((σ.threads next).status = .ready → σ.Linked next) ∧
            (donateLoop fuel next).run (σ.raise next (σ.eff curr)) = some ((), σ'))) := by
  rw [donateLoop, run_bind_of_run (a := σ) (t := σ) rfl] at hrun
  cases hnext : σ.waitsOn curr with
  | none =>
    rw [hnext] at hrun
    exact .inl ⟨rfl, (Prod.mk.inj (Option.some.inj hrun)).2.symm⟩
  | some next =>
    rw [hnext] at hrun
    refine .inr ⟨next, rfl, ?_⟩
    dsimp only at hrun
    rcases lt_or_ge (σ.eff next) (σ.eff curr) with hlt | hge
    · rw [if_pos hlt, run_bind_of_run (t := σ.setEff next (σ.eff curr)) rfl] at hrun
      refine .inr ⟨hlt, ?_⟩
      unfold Machine.raise
      split at hrun
      · rename_i hready
        obtain ⟨⟨⟩, σ₁, hrequeue, hloop⟩ := run_bind_cases hrun
        obtain ⟨hlinked, rfl⟩ := requeue_cases hrequeue
        rw [if_pos hready]
        exact ⟨fun _ => hlinked, hloop⟩
      · rename_i hready
        rw [if_neg hready]
        exact ⟨fun h => absurd h hready, hrun⟩
    · rw [if_neg (not_lt.2 hge)] at hrun
      exact .inl ⟨hge, (Prod.mk.inj (Option.some.inj hrun)).2.symm⟩

theorem threads_setThread_cases (σ : Machine) (t u : ThreadId) (f : Thread → Thread) :
    (σ.setThread t f).threads u = σ.threads u ∨
      (σ.setThread t f).threads u = f (σ.threads u) := by
  unfold Machine.setThread
  rcases Classical.em (u = t) with rfl | hut
  · exact .inr (by simp)
  · exact .inl (by simp [hut])

@[simp] theorem eff_setThread (σ : Machine) (t u : ThreadId) (f : Thread → Thread) :
    (σ.setThread t f).eff u =
      if u = t then (f (σ.threads t)).effectivePriority else σ.eff u := by
  unfold Machine.eff Machine.setThread
  rcases Classical.em (u = t) with rfl | hut
  · simp
  · simp [hut]

/-- A change to other fields of a thread. -/
theorem eff_setThread_of_eq {σ : Machine} {t : ThreadId} {f : Thread → Thread}
    (hf : (f (σ.threads t)).effectivePriority = (σ.threads t).effectivePriority) (u : ThreadId) :
    (σ.setThread t f).eff u = σ.eff u := by
  rw [eff_setThread, hf]
  split
  · rename_i hut
    rw [hut]
    rfl
  · rfl

@[simp] theorem eff_raise (σ : Machine) (t u : ThreadId) (p : ℤ) :
    (σ.raise t p).eff u = if u = t then p else σ.eff u := by
  have hset : (σ.setEff t p).eff u = if u = t then p else σ.eff u := by
    rw [Machine.setEff, eff_setThread]
  unfold Machine.raise
  split
  · exact hset
  · exact hset

/-- **The rule for `recurse_donate`**: what each turn keeps holds at its end, at
a thread that waits for nobody of a lower priority. -/
theorem donateLoop_rule {p : ℤ} {I : ThreadId → Machine → Prop}
    (hturn : ∀ σ curr next, I curr σ → σ.eff curr = p → σ.waitsOn curr = some next →
      σ.eff next < p → ((σ.threads next).status = .ready → σ.Linked next) →
      I next (σ.raise next p)) {fuel : ℕ} :
    ∀ {curr : ThreadId} {σ σ' : Machine}, (donateLoop fuel curr).run σ = some ((), σ') →
      σ.eff curr = p → I curr σ →
      ∃ last, I last σ' ∧ σ'.eff last = p ∧ ∀ next, σ'.waitsOn last = some next →
        p ≤ σ'.eff next := by
  induction fuel with
  | zero =>
    intro curr σ σ' hrun
    cases hrun
  | succ fuel ih =>
    intro curr σ σ' hrun hp hI
    rcases donateLoop_cases hrun with ⟨hnone, rfl⟩ | ⟨next, hnext, hstop | hmore⟩
    · exact ⟨curr, hI, hp, fun next hnext => by rw [hnone] at hnext; cases hnext⟩
    · obtain ⟨hle, rfl⟩ := hstop
      refine ⟨curr, hI, hp, fun next' hnext' => ?_⟩
      rw [hnext] at hnext'
      exact hp ▸ Option.some.inj hnext' ▸ hle
    · obtain ⟨hlt, hlinked, hloop⟩ := hmore
      rw [hp] at hlt hloop
      exact ih hloop (by simp) (hturn σ curr next hI hp hnext hlt hlinked)

/-- The running thread waits for a lock. -/
def Machine.donateTo (σ : Machine) (l : LockId) : Machine :=
  σ.setThread σ.current fun th => { th with donatedTo := some l }

/-- What `lock_acquire` does up to its `sema_down`. -/
theorem lockAcquire_cases {σ σ' : Machine} {l : LockId}
    (hrun : (lockAcquire l).run σ = some ((), σ')) :
    σ.holder l ≠ some σ.current ∧ ∃ σ₁,
      ((σ.holder l = none ∧ σ₁ = σ.donateTo l) ∨ (σ.holder l ≠ none ∧
        (donateLoop (σ.allList.length + 1) σ.current).run (σ.donateTo l) = some ((), σ₁))) ∧
      σ' = σ₁.push [.down (.lock l), .take l] := by
  unfold lockAcquire at hrun
  rw [run_bind_of_run (a := σ) (t := σ) rfl] at hrun
  split at hrun
  · cases hrun
  · rename_i hother
    refine ⟨hother, ?_⟩
    rw [run_bind_of_run (t := σ.donateTo l) rfl] at hrun
    split at hrun
    · rename_i hheld
      obtain ⟨⟨⟩, σ₁, hdonate, hpush⟩ := run_bind_cases hrun
      exact ⟨σ₁, .inr ⟨hheld, hdonate⟩, (Prod.mk.inj (Option.some.inj hpush)).2.symm⟩
    · rename_i hfree
      exact ⟨σ.donateTo l, .inl ⟨not_not.1 hfree, rfl⟩,
        (Prod.mk.inj (Option.some.inj hrun)).2.symm⟩

/-- The running thread gets a lock. -/
def Machine.take (σ : Machine) (l : LockId) : Machine :=
  { σ.setThread σ.current fun th =>
      { th with donatedTo := none, donatedLocks := th.donatedLocks ++ [l] } with
    holder := Function.update σ.holder l (some σ.current) }

/-- The running thread gives a lock back. -/
def Machine.drop (σ : Machine) (l : LockId) : Machine :=
  { σ.setThread σ.current fun th => { th with donatedLocks := th.donatedLocks.erase l } with
    holder := Function.update σ.holder l none }

/-- What `update_priority` computes for `t`. -/
def Machine.maxPriority (σ : Machine) (t : ThreadId) : ℤ :=
  Threads.maxPriority σ (σ.threads t).donatedLocks (σ.threads t).priority

theorem updatePriority_run {σ : Machine} {t : ThreadId} (h : (σ.threads t).status ≠ .ready) :
    (updatePriority t).run σ = some ((), σ.setEff t (σ.maxPriority t)) := by
  unfold updatePriority
  show (if (σ.threads t).status = .ready then _ else _ : Sched Unit).run
    (σ.setEff t (σ.maxPriority t)) = _
  rw [if_neg h]
  rfl

/-- What `lock_release` does before its `sema_up`. -/
def Machine.release (σ : Machine) (l : LockId) : Machine :=
  (σ.drop l).setEff σ.current ((σ.drop l).maxPriority σ.current)

theorem maxPriority_congr {σ σ' : Machine} (hsemas : σ'.semas = σ.semas)
    (heff : ∀ t, σ'.eff t = σ.eff t) (locks : List LockId) (max : ℤ) :
    Threads.maxPriority σ' locks max = Threads.maxPriority σ locks max := by
  induction locks generalizing max with
  | nil => rfl
  | cons l locks ih =>
    unfold Threads.maxPriority
    rw [hsemas]
    split
    · exact ih max
    · rw [heff]
      exact ih _

/-- The priority the running thread is left with when it gives a lock back. -/
def Machine.left (σ : Machine) (l : LockId) : ℤ :=
  Threads.maxPriority σ ((σ.threads σ.current).donatedLocks.erase l)
    (σ.threads σ.current).priority

theorem eff_release (σ : Machine) (l : LockId) (u : ThreadId) :
    (σ.release l).eff u = if u = σ.current then σ.left l else σ.eff u := by
  have hdrop : ∀ t, (σ.drop l).eff t = σ.eff t := fun t =>
    eff_setThread_of_eq (f := fun th => { th with donatedLocks := th.donatedLocks.erase l }) rfl t
  have hsemas : (σ.drop l).semas = σ.semas := rfl
  have hleft : (σ.drop l).maxPriority σ.current = σ.left l := by
    rw [Machine.maxPriority, maxPriority_congr hsemas hdrop]
    simp [Machine.drop, Machine.setThread, Machine.left]
  rw [Machine.release, Machine.setEff, eff_setThread, hdrop, hleft]

theorem lockRelease_cases {σ σ' : Machine} {l : LockId}
    (h : (σ.threads σ.current).status = .running)
    (hrun : (lockRelease l).run σ = some ((), σ')) :
    σ.holder l = some σ.current ∧ (semaUp false (.lock l)).run (σ.release l) = some ((), σ') := by
  unfold lockRelease at hrun
  rw [run_bind_of_run (a := σ) (t := σ) rfl] at hrun
  split at hrun
  · rename_i hheld
    have hstatus : ((σ.drop l).threads σ.current).status ≠ .ready := by
      simp [Machine.drop, Machine.setThread, h]
    rw [run_bind_of_run (t := σ.drop l) rfl, run_bind_of_run (updatePriority_run hstatus)] at hrun
    exact ⟨hheld, hrun⟩
  · cases hrun

/-! ### Creating threads -/

/-- A page is asked for and not delivered. -/
def Machine.refuse (σ : Machine) : Machine := { σ with memory := fun n => σ.memory (n + 1) }

/-- A thread is initialised, with the rest of `thread_create` still to run. -/
def Machine.create (σ : Machine) (priority : ℤ) : Machine :=
  Machine.push { σ with
    memory := fun n => σ.memory (n + 1)
    nextThread := σ.nextThread + 1
    threads := Function.update σ.threads σ.nextThread (initThread priority)
    code := Function.update σ.code σ.nextThread []
    allList := σ.allList ++ [σ.nextThread] }
    [.acquire tidLock, .release tidLock, .start σ.nextThread]

theorem threadCreate_cases {σ σ' : Machine} {priority : ℤ}
    (hrun : (threadCreate priority).run σ = some ((), σ')) :
    σ' = σ.refuse ∨ (priMin ≤ priority ∧ priority ≤ priMax ∧ σ' = σ.create priority) := by
  unfold threadCreate at hrun
  rw [run_bind_of_run (a := σ) (t := σ) rfl] at hrun
  split at hrun
  · exact .inl (Prod.mk.inj (Option.some.inj hrun)).2.symm
  · split at hrun
    · rename_i hrange
      exact .inr ⟨hrange.1, hrange.2, (Prod.mk.inj (Option.some.inj hrun)).2.symm⟩
    · cases hrun

theorem threadStart_cases {σ σ' : Machine} (h : σ.policy.Implemented) {t : ThreadId}
    (hrun : (threadStart t).run σ = some ((), σ')) :
    (σ.threads t).status = .blocked ∧ σ' = (σ.unblock t).push [.yieldTo t] := by
  obtain ⟨⟨⟩, σ₁, hunblock, hpush⟩ := run_bind_cases hrun
  obtain ⟨ht, rfl⟩ := threadUnblock_cases h hunblock
  exact ⟨ht, (Prod.mk.inj (Option.some.inj hpush)).2.symm⟩

theorem yieldTo_run {σ : Machine} (h : σ.policy.Implemented) (t : ThreadId) :
    (yieldTo t).run σ =
      some ((), if σ.eff σ.current < σ.eff t then σ.yield else σ) := by
  unfold yieldTo
  show (if σ.eff σ.current < σ.eff t then threadYield else pure () : Sched Unit).run σ = _
  split
  · exact threadYield_run h
  · rfl

/-! ### The timer -/

/-- The running thread sets its wake time. -/
def Machine.setWake (σ : Machine) (ticks : ℤ) : Machine :=
  (σ.setThread σ.current fun th => { th with wakeTime := wrap64 (σ.ticks + ticks) }).push
    [.sleepInsert]

theorem sleepUntil_run (σ : Machine) (ticks : ℤ) :
    (sleepUntil ticks).run σ = some ((), if 0 < ticks then σ.setWake ticks else σ) := by
  unfold sleepUntil
  show (if 0 < ticks then _ else pure () : Sched Unit).run σ = _
  split <;> rfl

/-- The running thread goes to its place in `sleeping_list` and blocks. -/
def Machine.sleepBlock (σ : Machine) : Machine :=
  (Machine.push { σ with
    sleepingList := listInsertOrdered (wakeTimeComparator fun t => (σ.threads t).wakeTime)
      σ.current σ.sleepingList }
    [.slept]).block

theorem sleepInsert_run {σ : Machine} (h : σ.policy.Implemented) :
    sleepInsert.run σ = some ((), σ.sleepBlock) := by
  unfold sleepInsert
  rw [run_bind_of_run (t := { σ with
    sleepingList := listInsertOrdered (wakeTimeComparator fun t => (σ.threads t).wakeTime)
      σ.current σ.sleepingList }) rfl]
  exact threadBlock_run h

/-- The clock advances, and sleepers leave their list. -/
def Machine.advance (σ : Machine) (sleepers : List ThreadId) : Machine :=
  { σ with ticks := wrap64 (σ.ticks + 1), sleepingList := sleepers }

/-- The sleepers a tick wakes, and those it leaves. -/
def Machine.wake (σ : Machine) : List ThreadId × List ThreadId :=
  wakeSleepers (fun t => (σ.threads t).wakeTime) (wrap64 (σ.ticks + 1)) σ.sleepingList

theorem unblockAll_cases {σ σ' : Machine} (h : σ.policy.Implemented) {ts : List ThreadId}
    (hrun : (unblockAll ts).run σ = some ((), σ')) : σ' = ts.foldl Machine.unblock σ := by
  induction ts generalizing σ with
  | nil => exact (Prod.mk.inj (Option.some.inj hrun)).2.symm
  | cons t ts ih =>
    obtain ⟨⟨⟩, σ₁, hunblock, hrest⟩ := run_bind_cases hrun
    obtain ⟨-, rfl⟩ := threadUnblock_cases h hunblock
    exact ih (σ := σ.unblock t) h hrest

theorem foldl_unblock_policy (ts : List ThreadId) (σ : Machine) :
    (ts.foldl Machine.unblock σ).policy = σ.policy := by
  induction ts generalizing σ with
  | nil => rfl
  | cons t ts ih => exact ih (σ.unblock t)

/-- `thread_tick` asks for a `thread_yield`. -/
def Machine.Preempts (σ : Machine) : Prop :=
  (σ.policy = .prio ∧ ∃ rdy ∈ σ.priorityQueue.head?, σ.eff σ.current < σ.eff rdy) ∨
    timeSlice ≤ σ.threadTicks + 1

instance (σ : Machine) : Decidable σ.Preempts := inferInstanceAs (Decidable (_ ∨ _))

/-- The time slice goes on. -/
def Machine.countTick (σ : Machine) : Machine := { σ with threadTicks := σ.threadTicks + 1 }

theorem threadTick_run {σ : Machine} (h : σ.policy.Implemented) :
    threadTick.run σ =
      some ((), if σ.Preempts then σ.countTick.yield else σ.countTick) := by
  show (if σ.Preempts then threadYield else pure () : Sched Unit).run σ.countTick = _
  split
  · exact threadYield_run h
  · rfl

/-- What a timer interrupt does. -/
theorem timerTick_cases {σ σ' : Machine} (h : σ.policy.Implemented)
    (hrun : timerTick.run σ = some ((), σ')) :
    ∃ σ₁, σ₁ = σ.wake.1.foldl Machine.unblock (σ.advance σ.wake.2) ∧
      σ' = if σ₁.Preempts then σ₁.countTick.yield else σ₁.countTick := by
  unfold timerTick at hrun
  rw [run_bind_of_run (a := σ) (t := σ) rfl, run_bind_of_run (t := σ.advance σ.wake.2) rfl] at hrun
  obtain ⟨⟨⟩, σ₁, hunblock, htick⟩ := run_bind_cases hrun
  have hfold := unblockAll_cases (σ := σ.advance σ.wake.2) h hunblock
  refine ⟨σ₁, hfold, ?_⟩
  have hpolicy : σ₁.policy = σ.policy := by
    rw [hfold, foldl_unblock_policy]
    rfl
  rw [threadTick_run (hpolicy ▸ h)] at htick
  exact (Prod.mk.inj (Option.some.inj htick)).2.symm

end Threads
end CS162
